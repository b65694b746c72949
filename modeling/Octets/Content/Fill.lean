import Octets.Action
import Octets.Argument
import Octets.Encoding

/-!
# Fill

Writing a pattern over and over into a range of bytes. The pattern is one byte, or bytes that are
repeated: for a text its bytes, one zero byte if it is empty; bytes are their own pattern; anything
else is coerced to one byte. With
a text, an encoding may stand in the place of the offset, for the whole, or of the end, for the
rest.
-/

namespace Octets.Content

/-- The first `count` bytes of the pattern repeated without end. -/
def repeated (pattern : Bytes) (count : Nat) : Bytes :=
  (List.range count).map fun i => pattern.getD (i % pattern.length) 0

@[simp] theorem length_repeated (pattern : Bytes) (count : Nat) :
    (repeated pattern count).length = count := by
  simp [repeated]

/-- A position holds the byte of the pattern that its remainder counts. -/
theorem getElem?_repeated (pattern : Bytes) {count i : Nat} (h : i < count) :
    (repeated pattern count)[i]? = some (pattern.getD (i % pattern.length) 0) := by
  simp [repeated, h]

/-- The encoding of a fill: utf8 if the argument is missing or null. -/
def fillEncoding (v : Operand) : Except Fault Encoding :=
  match v with
  | .undefined => .ok .utf8
  | .null => .ok .utf8
  | .text s => Encoding.ofName s
  | other => .error (.wrongType "encoding" "of type string" other)

/-- The place of a fill as its arguments give it: offset, end and encoding. -/
structure Span (ω : Type) where
  offset : Value ω
  stop : Value ω
  encoding : Value ω

/-- The place of a fill with a text: a text in place of the offset or of the end is the
encoding. -/
def textSpan {ω : Type} (offset stop encoding : Value ω) : Span ω :=
  if offset.isUndefined || offset.isText then ⟨.undefined, .undefined, offset⟩
  else if stop.isText then ⟨offset, .undefined, stop⟩
  else ⟨offset, stop, encoding⟩

/-- The place of a fill. -/
def span {ω : Type} (value offset stop encoding : Value ω) : Span ω :=
  if value.isText then textSpan offset stop encoding else ⟨offset, stop, encoding⟩

/-- What is repeated by a fill. -/
inductive Pattern where
  | single (b : UInt8)
  | cycle (content : Bytes)
deriving DecidableEq

namespace Pattern

/-- The bytes of a pattern. -/
def bytes : Pattern → Bytes
  | .single b => [b]
  | .cycle content => content

/-- The pattern of a text. A text of one unit below the first character of two bytes is its own
byte in utf8, and any text of one unit is so in latin1. -/
def ofText (s : String) (e : Encoding) : Except Fault Pattern :=
  match Text.Utf16.units s.toList with
  | [] => .ok (.single 0)
  | [u] =>
    if (e = .utf8 ∧ u < 128) ∨ e = .latin1 then .ok (.single (Text.SingleByte.lowByte u))
    else (e.encode s).map .cycle
  | _ => (e.encode s).map .cycle

end Pattern

/-- The pattern of a value. -/
def pattern (value encoding : Operand) : Except Fault Pattern :=
  match value with
  | .text s => do
    let e ← fillEncoding encoding
    Pattern.ofText s e
  | .bytes content => return .cycle content
  | .buffer content => return .cycle content
  | other => do
    let b ← other.toByte
    return .single b

/-- The range of a fill among `length` bytes; none if it is given and empty. -/
def fillRange (length : Nat) (offset stop : Operand) : Except Fault (Option (Nat × Nat)) :=
  if offset.isUndefined then return some (0, length)
  else do
    let first ← Argument.position offset "offset" maxLength
    let last ← Argument.positionOr stop "end" length length
    return if last ≤ first then none else some (first, last)

/-- Fill a range with a value. The value and its encoding are looked at first, then the range; a
pattern without bytes is refused only where there is something to fill. -/
def fill (content : Bytes) (value offset stop encoding : Operand) : Except Stop Bytes := do
  let place := span value offset stop encoding
  let p ← pattern value place.encoding
  let range ← fillRange content.length place.offset place.stop
  match range with
  | none => return content
  | some (first, last) => do
    refuse p.bytes.isEmpty (.invalidValue "value" value)
    replaced content first last (repeated p.bytes (last - first))

end Octets.Content
