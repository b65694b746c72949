import Octets.Field.Floating
import Octets.Field.Integer
import Octets.Field.Packing
import Octets.Memory.Block

/-!
# Fields of windows

Reading and writing numbers in the bytes of a window. The arguments are looked at in the order in
which their faults are to be raised.
-/

namespace Octets.Window

/-! ## Integers -/

/-- The integer in a field. -/
def readInteger (w : Window) (l : Layout) (offset : Value Window) : Action Store Int := do
  Field.checkWidth l
  let start ← offset.ask (Argument.place · w.length l.width)
  let content ← w.load
  let field ← part content start (start + l.width)
  if l.signed then Word.signExtended (Word.unpack l.order field) l.bits
  else return Word.unpack l.order field

/-- Write an integer into a field. -/
def writeInteger (w : Window) (l : Layout) (value offset : Value Window) : Action Store Nat := do
  Field.checkWidth l
  let x ← value.ask Value.toNumber
  offset.ask (Field.checkOffset l)
  let n ← Field.accepted l x
  let start ← offset.ask (Argument.place · w.length l.width)
  w.change (Action.within start (start + l.width) (Word.pack l.order (Word.ofInt 64 n)))
  return start + l.width

/-- The integer in a field whose width is an argument; the offset is looked at first. -/
def readSized (w : Window) (signed : Bool) (order : ByteOrder) (offset width : Value Window) :
    Action Store Int := do
  offset.ask Field.requireOffset
  let l ← width.ask (Field.sizedLayout · signed order)
  w.readInteger l offset

/-- Write an integer into a field whose width is an argument; the width is looked at first. -/
def writeSized (w : Window) (signed : Bool) (order : ByteOrder)
    (value offset width : Value Window) : Action Store Nat := do
  let l ← width.ask (Field.sizedLayout · signed order)
  offset.ask Field.requireOffset
  w.writeInteger l value offset

/-- The big integer in a field. -/
def readBig (w : Window) (signed : Bool) (order : ByteOrder) (offset : Value Window) :
    Action Store Int := do
  let start ← offset.ask (Argument.place · w.length 8)
  let content ← w.load
  let field ← part content start (start + 8)
  return Word.toInt signed 64 (Word.unpack order field)

/-- Write a big integer into a field. -/
def writeBig (w : Window) (signed : Bool) (order : ByteOrder) (value offset : Value Window) :
    Action Store Nat := do
  let n ← value.ask (Field.acceptedBig signed order)
  let start ← offset.ask (Argument.place · w.length 8)
  w.change (Action.within start (start + 8) (Word.pack order (Word.ofInt 64 n)))
  return start + 8

/-! ## Numbers in a binary format -/

/-- The bytes of a field, copied to a place of their number. -/
def fieldBytes (w : Window) (start width : Nat) : Action Store Bytes := do
  let content ← w.load
  let field ← part content start (start + width)
  copied width field

/-- The number in a field of four bytes. -/
def readSingle (w : Window) (order : ByteOrder) (offset : Value Window) :
    Action Store Binary64 := do
  let start ← offset.ask (Argument.place · w.length 4)
  let field ← w.fieldBytes start 4
  return Binary32.widen (Word.ofBytes order field)

/-- The number in a field of eight bytes. -/
def readDouble (w : Window) (order : ByteOrder) (offset : Value Window) :
    Action Store Binary64 := do
  let start ← offset.ask (Argument.place · w.length 8)
  let field ← w.fieldBytes start 8
  return (Binary64.ofBits (Word.ofBytes order field)).canonical

/-- Write a number into a field of four bytes. -/
def writeSingle (w : Window) (order : ByteOrder) (value offset : Value Window) :
    Action Store Nat := do
  let x ← value.ask Value.toNumber
  let start ← offset.ask (Argument.place · w.length 4)
  let bytes := Word.toBytes order 4 (Binary32.narrow x)
  w.change (Action.within start (start + 4) (Action.assign bytes))
  return start + 4

/-- Write a number into a field of eight bytes. -/
def writeDouble (w : Window) (order : ByteOrder) (value offset : Value Window) :
    Action Store Nat := do
  let x ← value.ask Value.toNumber
  let start ← offset.ask (Argument.place · w.length 8)
  let bytes := Word.toBytes order 8 x.bits
  w.change (Action.within start (start + 8) (Action.assign bytes))
  return start + 8

end Octets.Window
