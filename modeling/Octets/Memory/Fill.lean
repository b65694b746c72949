import Octets.Content.Fill
import Octets.Memory.Block

/-!
# Filling windows

The pattern is found before the range is looked at, so that a buffer that is filled with its own
bytes is filled with those it had.
-/

namespace Octets.Window

open Content (Pattern)

/-- The pattern of a value. -/
def pattern (value encoding : Value Window) : Action Store Pattern :=
  match value with
  | .text s => do
    let e ← encoding.ask Content.fillEncoding
    Pattern.ofText s e
  | .bytes content => return .cycle content
  | .buffer source => do
    let content ← source.load
    return .cycle content
  | other => do
    let b ← other.ask Value.toByte
    return .single b

/-- The range of a fill among `length` bytes; none if it is given and empty. -/
def fillRange (length : Nat) (offset stop : Value Window) : Action Store (Option (Nat × Nat)) :=
  if offset.isUndefined then return some (0, length)
  else do
    let first ← offset.ask (Argument.position · "offset" maxLength)
    let last ← stop.ask (Argument.positionOr · "end" length length)
    return if last ≤ first then none else some (first, last)

/-- Fill a range with a value. -/
def fill (w : Window) (value offset stop encoding : Value Window) : Action Store Unit := do
  let place := Content.span value offset stop encoding
  let p ← pattern value place.encoding
  let range ← fillRange w.length place.offset place.stop
  match range with
  | none => pure ()
  | some (first, last) =>
    match p with
    | .single b =>
      w.change (Action.within first last (modify fun slice => List.replicate slice.length b))
    | .cycle bytes => do
      value.ask fun v => refuse bytes.isEmpty (.invalidValue "value" v)
      w.change (Action.within first last (modify fun slice => Content.repeated bytes slice.length))

end Octets.Window
