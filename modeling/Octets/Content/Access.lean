import Octets.Argument

/-!
# Single bytes

Reading and writing one byte of the bytes that a buffer shows.
-/

namespace Octets.Content

/-- Why there is no byte at an index. -/
def indexFault (length index : Nat) : Fault :=
  if length = 0 then .outsideMemory
  else .outOfRange "index" (">= 0 and <= " ++ toString (length - 1)) (.ofInt index)

/-- The byte at an index. -/
def byteAt (content : Bytes) (index : Nat) : Except Fault UInt8 :=
  match content[index]? with
  | some b => .ok b
  | none => .error (indexFault content.length index)

/-- Write the byte at an index. -/
def setByte (content : Bytes) (index : Nat) (b : UInt8) : Except Fault Bytes :=
  if index < content.length then .ok (content.set index b)
  else .error (indexFault content.length index)

end Octets.Content
