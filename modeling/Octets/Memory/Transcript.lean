import Octets.Content.Transcript
import Octets.Memory.Block
import Octets.Text.Cutting

/-!
# Text in windows

Reading and writing text in the bytes of a window.
-/

namespace Octets

namespace Encoding

/-- Write the characters of a text that fit, in utf8. -/
def writeUtf8 (s : String) : Action Bytes Nat := do
  let slice ← get
  let bytes := Text.Utf8.encode s.toList
  let stop ← Text.Utf8.cut bytes slice.length
  let fitting ← part bytes 0 stop
  Action.within 0 fitting.length (Action.assign fitting)
  return fitting.length

/-- The number of bytes that are written where there is room for some of them; utf16le writes
whole units. -/
def written (e : Encoding) (count room : Nat) : Nat :=
  if e = .utf16le then min count room / 2 * 2 else min count room

/-- Write the bytes of a text that fit. -/
def writeCut (e : Encoding) (s : String) : Action Bytes Nat := do
  let slice ← get
  let bytes ← e.encode s
  let count := e.written bytes.length slice.length
  let new ← part bytes 0 count
  Action.within 0 count (Action.assign new)
  return count

/-- Write a text into bytes, and say how many bytes were written. -/
def writeInto (e : Encoding) (s : String) : Action Bytes Nat :=
  match e with
  | .utf8 => writeUtf8 s
  | e => e.writeCut s

end Encoding

namespace Window

/-- The text of the bytes in a range. -/
def toText (w : Window) (encoding start stop : Value Window) : Action Store String := do
  let count := Binary64.ofNat w.length
  let x ← start.ask Value.toNumber
  match Content.textStart count x with
  | none => return ""
  | some low => do
    let high ← stop.ask (Content.textStopOr count)
    if high.le low then return ""
    else do
      let e ← encoding.ask Content.textEncoding
      let content ← w.load
      let piece ← part content low.toNatural high.toNatural
      return e.decode piece

/-- Where a text is written among `total` bytes, and the room for it. -/
def textPlace (total : Nat) (offset length : Value Window) : Action Store (Nat × Nat) :=
  if offset.isUndefined || (length.isUndefined && offset.isText) then return (0, total)
  else do
    let start ← offset.ask (Argument.position · "offset" total)
    let rest ← difference total start
    let room ← length.ask (Content.room total rest)
    return (start, room)

/-- Write a text, and say how many bytes were written. -/
def writeText (w : Window) (s : String) (offset length encoding : Value Window) :
    Action Store Nat := do
  let (start, room) ← textPlace w.length offset length
  let e ← (Content.namedEncoding offset length encoding).ask Content.writtenEncoding
  w.change (Action.within start (start + room) (e.writeInto s))

end Window

end Octets
