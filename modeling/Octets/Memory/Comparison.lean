import Octets.Content.Comparison
import Octets.Memory.Block

/-!
# Comparison of windows

A window is not compared with itself byte by byte.
-/

namespace Octets.Window

/-- The order of the bytes of two windows. -/
def compare (w other : Window) : Action Store Ordering :=
  if w = other then return .eq
  else do
    let (a, b) ← w.loadPair other
    return Bytes.order a b

/-- The bytes of two windows are the same. -/
def equals (w other : Window) : Action Store Bool :=
  if w = other then return true
  else if w.length = other.length then do
    let o ← w.compare other
    return o == .eq
  else return false

/-- The order of a range of a window and a range of a target. -/
def compareRange (w target : Window)
    (targetStart targetStop sourceStart sourceStop : Value Window) : Action Store Ordering := do
  let ts ← targetStart.ask (Argument.positionOr · "targetStart" maxLength 0)
  let te ← targetStop.ask (Argument.positionOr · "targetEnd" target.length target.length)
  let ss ← sourceStart.ask (Argument.positionOr · "sourceStart" maxLength 0)
  let se ← sourceStop.ask (Argument.positionOr · "sourceEnd" w.length w.length)
  if se ≤ ss then return if te ≤ ts then .eq else .lt
  else if te ≤ ts then return .gt
  else do
    refuse (w.length < ss) (.outsideDomain "sourceStart")
    refuse (target.length < ts) (.outsideDomain "targetStart")
    let sourceCount ← difference se ss
    let targetCount ← difference te ts
    let rest ← difference w.length ss
    let (a, b) ← w.loadPair target
    Content.orderPieces a b ss sourceCount ts targetCount (min (min sourceCount targetCount) rest)

end Octets.Window
