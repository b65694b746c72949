import Octets.Memory.Block

/-!
# Bytes and parts of windows

Single bytes of a window, and windows onto a part of another one or of its block.
-/

namespace Octets.Window

/-- The byte at an index of a window. -/
def byteAt (w : Window) (index : Nat) : Action Store UInt8 := do
  if w.length ≤ index then noByte w.length index
  else Store.readByte w.block (w.offset + index)

/-- Write the byte at an index of a window. -/
def setByte (w : Window) (index : Nat) (b : UInt8) : Action Store Unit := do
  if w.length ≤ index then noByte w.length index
  else Store.writeByte w.block (w.offset + index) b

/-- The part of a window between two positions, which are moved into the window and past each
other. -/
def aliased (w : Window) (start stop : Int) : Except Stop Window := do
  let first := Argument.clampIndex w.length start
  let last := max (Argument.clampIndex w.length stop) first
  let length ← difference last first
  return ⟨w.block, w.offset + first, length⟩

/-- The part of a window that two arguments give. -/
def subarray (w : Window) (start stop : Value Window) : Action Store Window := do
  let first ← start.ask (Argument.relativeOffset · w.length 0)
  let last ← stop.ask (Argument.relativeOffset · w.length w.length)
  w.aliased first last

/-- Where a window onto a block begins: a number rounded toward zero, at the start of the block if
the argument is missing or not a number. -/
def shareStart (v : Operand) : Except Fault Binary64 :=
  if v.isUndefined then .ok (.zero false)
  else v.toNumber.map fun x => if x.isNaN then .zero false else x.truncated

/-- The length of a window onto a block with room for `room` bytes: all of them if the argument is
missing, none if it is not positive. -/
def shareLength (room : Binary64) (v : Operand) : Except Fault Binary64 :=
  if v.isUndefined then .ok room
  else do
    let x ← v.toNumber
    refuse (room.lt x) (.outsideBounds "length")
    return if (Binary64.zero false).lt x then x.truncated else .zero false

/-- The window onto a block that two arguments give. The room is a difference of numbers. -/
def share (id : Nat) (offset length : Value Window) : Action Store Window := do
  let start ← offset.ask shareStart
  let s ← get
  let room := (Binary64.ofNat (s.capacity id)).sub start
  refuse (start.lt (.zero false) || room.lt (.zero false)) (.outsideBounds "offset")
  let count ← length.ask (shareLength room)
  create id start.toNatural count.toNatural

end Octets.Window
