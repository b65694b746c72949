import Octets.Content.Search
import Octets.Memory.Block

/-!
# Search in windows

The needle is turned into bytes before the bytes of the window are looked at. At every position
the piece of the bytes that starts there is compared with the needle.
-/

namespace Octets

namespace Search

/-- The first of the given positions at which the needle stands. -/
def scan {α : Type} [BEq α] (hay needle : List α) : List Nat → Except Stop (Option Nat)
  | [] => return none
  | i :: rest => do
    let piece ← part hay i (i + needle.length)
    if piece == needle then return some i else scan hay needle rest

/-- The first position, in the given direction, at which the needle stands. -/
def locate {α : Type} [BEq α] (hay needle : List α) (start : Nat) (d : Direction) :
    Except Stop (Option Nat) :=
  if hay.length < needle.length then return none
  else do
    let last ← difference hay.length needle.length
    scan hay needle (positions last start d)

/-- The position of the needle; `wide` compares 16-bit units. -/
def locateBytes (hay needle : Bytes) (offset : Int) (d : Direction) (wide : Bool) :
    Except Stop (Option Nat) :=
  match task hay.length needle.length offset d wide with
  | .answered p => return p
  | .bytes start => locate hay needle start d
  | .units start => do
    let unit ← locate (Text.Utf16.unitsOfBytes hay) (Text.Utf16.unitsOfBytes needle) start d
    return unit.map (· * 2)

end Search

namespace Window

open Search

/-- The needle of an argument. -/
def needle (value encoding : Value Window) : Action Store Needle :=
  match value with
  | .number x => return ⟨[x.toByte], false⟩
  | .text s => encoding.ask (textNeedle s)
  | .bytes content => do
    let named ← encoding.observe
    return ⟨content, isWide named⟩
  | .buffer source => do
    let content ← source.load
    let named ← encoding.observe
    return ⟨content, isWide named⟩
  | other => other.ask fun v => .error (noNeedle v)

/-- The position of a needle in the bytes of a window. -/
def indexOf (w : Window) (value position encoding : Value Window) (d : Direction) :
    Action Store (Option Nat) := do
  let x ← position.ask Search.number
  let n ← needle value (encodingOf position encoding)
  let content ← w.load
  locateBytes content n.bytes (Search.offset w.length d x) d n.wide

/-- The needle stands at or after the offset. -/
def includes (w : Window) (value position encoding : Value Window) : Action Store Bool := do
  let p ← w.indexOf value position encoding .forward
  return p.isSome

end Window

end Octets
