import Octets.Memory.Access
import Octets.Memory.Comparison
import Octets.Memory.Copy
import Octets.Memory.Field
import Octets.Memory.Fill
import Octets.Memory.Search
import Octets.Memory.Swap
import Octets.Memory.Transcript
import Octets.Operation

/-!
# Operations on windows

How a `Query` is asked of a window and an `Edit` is performed on one: on the memory, with windows
for the other buffers among the arguments.
-/

namespace Octets

namespace Field.Shape

/-- The value in a field of a window. -/
def load (shape : Shape) (w : Window) (offset : Value Window) : Action Store Reply :=
  match shape with
  | .integer l => do
    let n ← w.readInteger l offset
    return .integer n
  | .bigInteger signed order => do
    let n ← w.readBig signed order offset
    return .bigInteger n
  | .single order => do
    let x ← w.readSingle order offset
    return .number x
  | .double order => do
    let x ← w.readDouble order offset
    return .number x

/-- Write a value into a field of a window. -/
def store (shape : Shape) (w : Window) (value offset : Value Window) : Action Store Nat :=
  match shape with
  | .integer l => w.writeInteger l value offset
  | .bigInteger signed order => w.writeBig signed order value offset
  | .single order => w.writeSingle order value offset
  | .double order => w.writeDouble order value offset

end Field.Shape

/-- The answer of a window to a query. -/
def Query.ask (q : Query Window) (w : Window) : Action Store Reply :=
  match q with
  | .byteAt index => do
    let b ← w.byteAt index
    return .natural b.toNat
  | .readField shape offset => shape.load w offset
  | .readSized signed order offset width => do
    let n ← w.readSized signed order offset width
    return .integer n
  | .toText encoding start stop => do
    let text ← w.toText encoding start stop
    return .text text
  | .indexOf needle position encoding direction => do
    let p ← w.indexOf needle position encoding direction
    return .position p
  | .includes needle position encoding => do
    let b ← w.includes needle position encoding
    return .flag b
  | .compare other => do
    let o ← w.compare other
    return .order o
  | .equals other => do
    let b ← w.equals other
    return .flag b
  | .compareRange target ts te ss se => do
    let o ← w.compareRange target ts te ss se
    return .order o

/-- Change the bytes of a window by an edit. -/
def Edit.perform (e : Edit Window) (w : Window) : Action Store Reply :=
  match e with
  | .setByte index b => do
    w.setByte index b
    return .nothing
  | .writeField shape value offset => do
    let next ← shape.store w value offset
    return .natural next
  | .writeSized signed order value offset width => do
    let next ← w.writeSized signed order value offset width
    return .natural next
  | .writeText s offset length encoding => do
    let count ← w.writeText s offset length encoding
    return .natural count
  | .fill value offset stop encoding => do
    w.fill value offset stop encoding
    return .nothing
  | .swap unit => do
    w.swap unit
    return .nothing
  | .copy source ts ss se => do
    let count ← source.copy w ts ss se
    return .natural count
  | .copyRange source ts ss se => do
    let count ← source.copyInto w ts ss se
    return .natural count

end Octets
