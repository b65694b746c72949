import Octets.Action
import Octets.Field.Word

/-!
# Packing of words

How a word is put into the bytes of a field and taken out of them: byte by byte, by shifts of a
64-bit word. What is packed and unpacked in this way are the words of `Octets.Field.Word`.
-/

namespace Octets.Word

/-- How far a word is shifted for the byte at position `i` of a field. -/
def shift (order : ByteOrder) (width i : Nat) : Except Stop Nat :=
  match order with
  | .big => do
    let last ← difference width 1
    let steps ← difference last i
    return 8 * steps
  | .little => return 8 * i

/-- Put the bytes of a word at the given positions of a field. -/
def packAt (order : ByteOrder) (width word : Nat) : List Nat → Action Bytes Unit
  | [] => pure ()
  | i :: rest => do
    let k ← shift order width i
    modify (·.set i (UInt8.ofNat (word >>> k)))
    packAt order width word rest

/-- Put the low bytes of a word into a field. -/
def pack (order : ByteOrder) (word : Nat) : Action Bytes Unit := do
  let field ← get
  packAt order field.length word (List.range field.length)

/-- One byte more of a word, from the most significant one on. -/
def pushed (word : Nat) (b : UInt8) : Nat := word * 256 + b.toNat

/-- The word in the bytes of a field. -/
def unpack (order : ByteOrder) (field : Bytes) : Nat :=
  match order with
  | .big => field.foldl pushed 0
  | .little => field.reverse.foldl pushed 0

/-- The integer that the low bits of a word stand for: they are shifted up to the sign and back. -/
def signExtended (word bits : Nat) : Except Stop Int := do
  let k ← difference 64 bits
  return toInt true 64 (word * 2 ^ k % 2 ^ 64) / 2 ^ k

end Octets.Word
