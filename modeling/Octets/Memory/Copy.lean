import Octets.Content.Copy
import Octets.Memory.Block

/-!
# Copying between windows

Within one block bytes are moved, so that the ranges may overlap; from one block to another a
chunk is taken out of the one and put into the other.
-/

namespace Octets.Window

/-- Copy a number of bytes from one place of a window to one of a target. -/
def transfer (w target : Window) (sourceStart targetStart count : Nat) : Action Store Unit :=
  let source := w.offset + sourceStart
  let place := target.offset + targetStart
  if w.block = target.block then
    Store.change w.block (Action.move source (source + count) place)
  else do
    let content ← Store.fetch w.block
    let chunk ← part content source (source + count)
    Store.change target.block (Action.within place (place + count) (Action.assign chunk))

/-- Copy a range of a window to a place of a target, as many bytes as there are and fit, and say
how many they are. -/
def copyInto (w target : Window) (targetStart sourceStart sourceStop : Nat) : Action Store Nat :=
  if min sourceStop w.length ≤ sourceStart ∨ target.length ≤ targetStart then return 0
  else do
    let available ← difference (min sourceStop w.length) sourceStart
    let room ← difference target.length targetStart
    w.transfer target sourceStart targetStart (min available room)
    return min available room

/-- Copy a range of a window into a target. -/
def copy (w target : Window) (targetStart sourceStart sourceStop : Value Window) :
    Action Store Nat := do
  let ts ← targetStart.ask (Content.copyPosition · 0)
  refuse (ts < 0) (.outOfRange "targetStart" ">= 0" (.ofInt ts))
  let ss ← sourceStart.ask (Content.copyPosition · 0)
  refuse (ss < 0 ∨ (w.length : Int) < ss)
    (.outOfRange "sourceStart" (">= 0 && <= " ++ toString w.length) (.ofInt ss))
  let se ← sourceStop.ask (Content.copyPosition · w.length)
  refuse (se < 0) (.outOfRange "sourceEnd" ">= 0" (.ofInt se))
  if (target.length : Int) ≤ ts ∨ se ≤ ss then return 0
  else w.copyInto target ts.toNat ss.toNat (min se w.length).toNat

/-- Copy windows into a target one after the other, from a position on, until it is full. -/
def copyAll (target : Window) : List Window → Nat → Action Store Unit
  | [], _ => pure ()
  | w :: rest, position =>
    if target.length ≤ position then pure ()
    else do
      let count ← w.copyInto target position 0 w.length
      copyAll target rest (position + count)

/-- A new block with the bytes of the windows one after the other. Its length, if none is given, is
the sum of theirs in 64 bits. -/
def concat (parts : List Window) (totalLength : Value Window) : Action Store Window :=
  match parts with
  | [] => Store.wrap []
  | parts => do
    let total := wrappedSum (parts.map Window.length)
    let length ← totalLength.ask (Argument.positionOr · "length" maxLength total)
    let target ← Store.allocate length
    target.copyAll parts 0
    return target

end Octets.Window
