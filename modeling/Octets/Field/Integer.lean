import Octets.Action
import Octets.Argument
import Octets.Field.Word

/-!
# Integer fields

Fields of one to six bytes that hold a number, and fields of eight bytes that hold a big integer.
Every function works on the bytes that a buffer shows: a read gives the value, a write gives the
bytes afterwards and the offset just past the field.
-/

namespace Octets.Field

/-! ## Numbers -/

/-- The widest field that holds a number. -/
def maxNumberWidth : Nat := 6

/-- The range of the widths of fields that hold a number. -/
def widthRange : String := ">= 1 and <= 6"

/-- The layout is not too wide to hold a number. -/
def checkWidth (l : Layout) : Except Fault Unit :=
  refuse (maxNumberWidth < l.width) (.outOfRange "byteLength" widthRange (.ofInt l.width))

/-- The type of a one-byte field's offset is checked before the value that is written. -/
def checkOffset (l : Layout) (offset : Operand) : Except Fault Unit :=
  if l.width = 1 then (Argument.fieldOffset offset).map fun _ => () else .ok ()

/-- The integer that is written for a number: rounded toward zero, zero for what is not a
number, and in the range of the layout. The ends of the range are compared as numbers. The message
shows the number that the argument stands for. -/
def accepted (l : Layout) (x : Binary64) : Except Fault Int :=
  let whole := if x.isNaN then .zero false else x.truncated
  if whole.lt (.ofInt l.min) || (Binary64.ofInt l.max).lt whole then
    .error (.outOfRange "value" l.rangeText (.number x))
  else .ok (whole.truncClamped minInt64 maxInt64)

/-- The integer in a field. -/
def readInteger (l : Layout) (content : Bytes) (offset : Operand) : Except Stop Int := do
  checkWidth l
  let start ← Argument.place offset content.length l.width
  let field ← part content start (start + l.width)
  return Word.toInt l.signed l.bits (Word.ofBytes l.order field)

/-- Write an integer into a field. -/
def writeInteger (l : Layout) (content : Bytes) (value offset : Operand) :
    Except Stop (Bytes × Nat) := do
  checkWidth l
  let x ← value.toNumber
  checkOffset l offset
  let n ← accepted l x
  let start ← Argument.place offset content.length l.width
  let new ← replaced content start (start + l.width)
    (Word.toBytes l.order l.width (Word.ofInt l.bits n))
  return (new, start + l.width)

/-! ## Fields whose width is an argument -/

/-- The offset of such a field must be given. -/
def requireOffset (offset : Operand) : Except Fault Unit :=
  refuse offset.isUndefined (.wrongType "offset" "of type number" offset)

/-- The layout of a field whose width is an argument. -/
def sizedLayout (width : Operand) (signed : Bool) (order : ByteOrder) : Except Fault Layout := do
  let bytes ← Argument.fieldWidth width
  match Layout.ofWidth? bytes signed order with
  | some l => return l
  | none => throw (.outOfRange "byteLength" widthRange width)

/-- The integer in a field whose width is an argument; the offset is looked at first. -/
def readSized (signed : Bool) (order : ByteOrder) (content : Bytes) (offset width : Operand) :
    Except Stop Int := do
  requireOffset offset
  let l ← sizedLayout width signed order
  readInteger l content offset

/-- Write an integer into a field whose width is an argument; the width is looked at first. -/
def writeSized (signed : Bool) (order : ByteOrder) (content : Bytes)
    (value offset width : Operand) : Except Stop (Bytes × Nat) := do
  let l ← sizedLayout width signed order
  requireOffset offset
  writeInteger l content value offset

/-! ## Big integers -/

/-- The big integer in a field. -/
def readBig (signed : Bool) (order : ByteOrder) (content : Bytes) (offset : Operand) :
    Except Stop Int := do
  let start ← Argument.place offset content.length 8
  let field ← part content start (start + 8)
  return Word.toInt signed 64 (Word.ofBytes order field)

/-- The big integer that is written: one in the range of the field. A number is refused even
where it would fit. -/
def acceptedBig (signed : Bool) (order : ByteOrder) (value : Operand) : Except Fault Int :=
  match value with
  | .bigInteger n =>
    let l := Layout.int64 signed order
    if n < l.min ∨ l.max < n then .error (.outOfRange "value" l.bigRangeText value) else .ok n
  | _ => .error (.wrongType "value" "of type bigint" value)

/-- Write a big integer into a field. -/
def writeBig (signed : Bool) (order : ByteOrder) (content : Bytes) (value offset : Operand) :
    Except Stop (Bytes × Nat) := do
  let n ← acceptedBig signed order value
  let start ← Argument.place offset content.length 8
  let new ← replaced content start (start + 8) (Word.toBytes order 8 (Word.ofInt 64 n))
  return (new, start + 8)

end Octets.Field
