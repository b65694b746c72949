import Octets.Action
import Octets.Argument
import Octets.Field.Word
import Octets.Number.Binary32

/-!
# Floating fields

Fields of four or eight bytes that hold a number in one of the two binary formats. Any number
can be written: into four bytes it is rounded to the nearest single. Every pattern that is not a
number is read as the canonical one; all other patterns are kept exactly.
-/

namespace Octets.Field

/-- The number in a field of four bytes. -/
def readSingle (order : ByteOrder) (content : Bytes) (offset : Operand) :
    Except Stop Binary64 := do
  let start ← Argument.place offset content.length 4
  let field ← part content start (start + 4)
  return Binary32.widen (Word.ofBytes order field)

/-- The number in a field of eight bytes. -/
def readDouble (order : ByteOrder) (content : Bytes) (offset : Operand) :
    Except Stop Binary64 := do
  let start ← Argument.place offset content.length 8
  let field ← part content start (start + 8)
  return (Binary64.ofBits (Word.ofBytes order field)).canonical

/-- Write a number into a field of four bytes. -/
def writeSingle (order : ByteOrder) (content : Bytes) (value offset : Operand) :
    Except Stop (Bytes × Nat) := do
  let x ← value.toNumber
  let start ← Argument.place offset content.length 4
  let new ← replaced content start (start + 4) (Word.toBytes order 4 (Binary32.narrow x))
  return (new, start + 4)

/-- Write a number into a field of eight bytes. -/
def writeDouble (order : ByteOrder) (content : Bytes) (value offset : Operand) :
    Except Stop (Bytes × Nat) := do
  let x ← value.toNumber
  let start ← Argument.place offset content.length 8
  let new ← replaced content start (start + 8) (Word.toBytes order 8 x.bits)
  return (new, start + 8)

end Octets.Field
