import Octets.Action
import Octets.Argument
import Octets.Encoding

/-!
# Text in a buffer

Reading the text of a range of bytes, and writing a text into a range. Both take an encoding as
an argument; when a text is written, an encoding may also stand in the place of the offset or of
the length.
-/

namespace Octets.Content

/-! ## Reading -/

/-- Where a text begins among `count` bytes: a number rounded toward zero, from the start for what
is not positive. None at the end of the bytes and beyond it. -/
def textStart (count x : Binary64) : Option Binary64 :=
  if x.isNaN || x.le (.zero false) then some (.zero false)
  else if count.le x then none
  else some x.truncated

/-- Where a text stops among `count` bytes: a number rounded toward zero, at the end for what is
greater. -/
def textStop (count x : Binary64) : Binary64 :=
  if count.lt x then count
  else if x.isNaN then .zero false
  else x.truncated

/-- Where a text stops, at the end if the argument is missing. -/
def textStopOr (count : Binary64) (v : Operand) : Except Fault Binary64 :=
  if v.isUndefined then .ok count else v.toNumber.map (textStop count)

/-- The encoding of a text that is read. -/
def textEncoding (v : Operand) : Except Fault Encoding :=
  if v.isUndefined then .ok .utf8 else Encoding.ofNonempty v

/-- The text of the bytes in a range. The ends are coerced and compared as numbers; the encoding
is looked at only where the range is not empty, and the second end only where the first lies
before the end of the bytes. -/
def toText (content : Bytes) (encoding start stop : Operand) : Except Stop String := do
  let count := Binary64.ofNat content.length
  let x ← start.toNumber
  match textStart count x with
  | none => return ""
  | some low => do
    let high ← textStopOr count stop
    if high.le low then return ""
    else do
      let e ← textEncoding encoding
      let piece ← part content low.toNatural high.toNatural
      return e.decode piece

/-! ## Writing -/

/-- Arguments that leave the encoding of a written text open. -/
def isFalsy (v : Operand) : Bool :=
  match v with
  | .undefined => true
  | .null => true
  | .bool b => !b
  | .number x => x.isZero || x.isNaN
  | .text s => s == ""
  | _ => false

/-- The encoding of a text that is written. -/
def writtenEncoding (v : Operand) : Except Fault Encoding :=
  if isFalsy v then .ok .utf8 else Encoding.ofNonempty v

/-- The argument that names the encoding of a written text. Without an offset there is none; a text
in place of the offset, where no length is given, and one in place of the length is the encoding. -/
def namedEncoding {ω : Type} (offset length encoding : Value ω) : Value ω :=
  if offset.isUndefined then .undefined
  else if length.isUndefined && offset.isText then offset
  else if length.isText then length
  else encoding

/-- The room for a text where `rest` of `total` bytes are left. -/
def room (total rest : Nat) (length : Operand) : Except Fault Nat :=
  match length with
  | .undefined => .ok rest
  | .text _ => .ok rest
  | other => (Argument.position other "length" total).map (min · rest)

/-- Where a text is written among `total` bytes, and the room for it: the whole without an offset,
and where a text stands in its place. -/
def textPlace (total : Nat) (offset length : Operand) : Except Stop (Nat × Nat) :=
  if offset.isUndefined || (length.isUndefined && offset.isText) then return (0, total)
  else do
    let start ← Argument.position offset "offset" total
    let rest ← difference total start
    let room ← room total rest length
    return (start, room)

/-- Write a text, and say how many bytes were written. -/
def writeText (content : Bytes) (s : String) (offset length encoding : Operand) :
    Except Stop (Bytes × Nat) := do
  let (start, room) ← textPlace content.length offset length
  let e ← writtenEncoding (namedEncoding offset length encoding)
  let slice ← part content start (start + room)
  let new ← e.encodeInto slice.length s
  return (content.overwrite start new, new.length)

/-- The number of bytes of a text, or the length of bytes. A name that is not that of an encoding
counts as utf8. -/
def byteLength (value encoding : Operand) : Except Fault Nat :=
  match value with
  | .text s =>
    let e := if encoding.isUndefined then some Encoding.utf8 else Encoding.ofName? encoding.asText
    .ok ((e.getD .utf8).byteLength s)
  | .bytes content => .ok content.length
  | .buffer content => .ok content.length
  | other =>
    .error (.wrongType "string" "of type string or an instance of Buffer or ArrayBuffer" other)

end Octets.Content
