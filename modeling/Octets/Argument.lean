import Octets.Number.Wrapped
import Octets.Value.Coercion

/-!
# Checked arguments

What an operation asks of its arguments: a number in a range, a position, a size, the place of a
field. Each function takes the argument as it was received and gives the natural number or
integer that the operation works with, or the fault that names the argument.

Positions are of three kinds. A *position* must be a whole number in its range and is never
adjusted. The *place of a field* must leave room for the field. A *relative offset* is coerced,
counts from the end where it is negative, and is moved into the range.
-/

namespace Octets

/-- The greatest number of bytes of a block. -/
def maxLength : Nat := 2147483647

namespace Binary64

/-- Rounding toward negative infinity leaves the number as it is. -/
def isFloor (x : Binary64) : Bool := x.isWhole || x.isInfinite

end Binary64

namespace Argument

/-! ## Numbers -/

/-- The text of a range whose ends may be missing. -/
def rangeText : Option Binary64 → Option Binary64 → String
  | none, none => ""
  | some min, none => ">= " ++ min.text
  | none, some max => "<= " ++ max.text
  | some min, some max => ">= " ++ min.text ++ " && <= " ++ max.text

/-- A number argument in a range whose ends may be missing. Where there is an end, what is not a
number is outside. -/
def number (v : Operand) (name : String) (min max : Option Binary64) : Except Fault Binary64 :=
  match v with
  | .number x =>
    let below := min.any (x.lt ·)
    let above := max.any (·.lt x)
    let bounded := min.isSome || max.isSome
    if below || above || (bounded && x.isNaN) then
      .error (.outOfRange name (rangeText min max) v)
    else .ok x
  | _ => .error (.wrongType name "of type number" v)

/-- A number argument without a fraction, in a range. -/
def integer (v : Operand) (name : String) (min max : Binary64) : Except Fault Int :=
  match v with
  | .number x =>
    if !x.isWhole then .error (.outOfRange name "an integer" v)
    else if x.lt min || max.lt x then
      .error (.outOfRange name (rangeText (some min) (some max)) v)
    else .ok (x.truncClamped minInt64 maxInt64)
  | _ => .error (.wrongType name "of type number" v)

/-! ## Positions -/

/-- A position in `[0, max]`. -/
def position (v : Operand) (name : String) (max : Nat) : Except Fault Nat :=
  (integer v name (.zero false) (.ofNat max)).map Int.toNat

/-- A position in `[0, max]` that may be missing. -/
def positionOr (v : Operand) (name : String) (max default : Nat) : Except Fault Nat :=
  if v.isUndefined then .ok default else position v name max

/-- A size of a block. -/
def size (v : Operand) : Except Fault Nat := do
  let x ← number v "size" (some (.zero false)) (some (.ofNat maxLength))
  if !x.isFloor then .error (.outOfRange "size" "an integer" v)
  else .ok x.trunc.toNat

/-- A block of this many bytes can be made. -/
def blockSize (bytes : Nat) : Except Fault Unit :=
  if maxLength < bytes then
    .error (.outOfRange "size" (">= 0 && <= " ++ toString maxLength) (.ofInt bytes))
  else .ok ()

/-! ## Places of fields -/

/-- Why a number is not a position in `[0, last]`. A named argument counts from one. -/
def misplaced (x : Binary64) (last : Int) (name : Option String) : Fault :=
  let label := name.getD "offset"
  if !x.isFloor then .outOfRange label "an integer" (.number x)
  else if last < 0 then .outsideMemory
  else
    let least := if name.isSome then "1" else "0"
    .outOfRange label (">= " ++ least ++ " and <= " ++ toString last) (.number x)

/-- The number of a field's offset, zero if it is missing. -/
def fieldOffset (v : Operand) : Except Fault Binary64 :=
  match v with
  | .undefined => .ok (.zero false)
  | .number x => .ok x
  | _ => .error (.wrongType "offset" "of type number" v)

/-- The place of a field of `width` bytes among `length` bytes. The last place is a difference of
counts. -/
def place (v : Operand) (length width : Nat) : Except Fault Nat := do
  let x ← fieldOffset v
  let last := wrapped (length - width)
  if !x.isFloor || decide (last < 0) || x.lt (.zero false) || (Binary64.ofInt last).lt x then
    .error (misplaced x last none)
  else .ok x.trunc.toNat

/-- The width of a field whose width is an argument, one to six bytes. -/
def fieldWidth (v : Operand) : Except Fault Nat :=
  match v with
  | .number x =>
    if !x.isFloor || !(Binary64.ofNat 1).le x || !x.le (.ofNat 6) then
      .error (misplaced x 6 (some "byteLength"))
    else .ok x.trunc.toNat
  | _ => .error (.wrongType "byteLength" "of type number" v)

/-! ## Coerced positions -/

/-- The greatest integer up to which all integers are numbers. -/
def maxSafe : Nat := 9007199254740991

/-- A coerced integer, rounded toward negative infinity; the default where the argument is
missing, is not a number or is too great. -/
def integerOr (v : Operand) (default : Int) : Except Fault Int :=
  if v.isUndefined then .ok default
  else do
    let x ← v.toNumber
    if x.isNaN || decide (maxSafe * Binary64.one < x.magnitude) then .ok default
    else .ok x.floor

/-- The index among `length` positions that an integer stands for: a negative one counts from
the end, and one outside is moved to the nearer end. -/
def clampIndex (length : Nat) (i : Int) : Nat :=
  if i < 0 then (length + i).toNat else min i.toNat length

theorem clampIndex_le (length : Nat) (i : Int) : clampIndex length i ≤ length := by
  unfold clampIndex
  split <;> omega

/-- The index among `length` positions that a number stands for; counting from the end is a
rounded sum. -/
def relativeIndex (x : Binary64) (length : Nat) : Nat :=
  let count := Binary64.ofNat length
  let moved :=
    if x.lt (.zero false) then count.add x
    else if x.lt count then x else count
  moved.toNatural

/-- A relative offset among `length` positions, rounded toward zero; the default if it is
missing, zero if it is not a number. -/
def relativeOffset (v : Operand) (length default : Nat) : Except Fault Nat :=
  if v.isUndefined then .ok default
  else v.toNumber.map fun x => if x.isNaN then 0 else relativeIndex x.truncated length

end Argument

end Octets
