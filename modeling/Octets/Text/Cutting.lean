import Octets.Action
import Octets.Text.Utf8

/-!
# Cutting UTF-8 text

The end of the characters that fit a number of bytes is looked for backward, from the last byte
that fits, until a character begins there.
-/

namespace Octets.Text.Utf8

/-- A character of the encoded text begins at a position, or the text ends there. -/
def isBoundary (bytes : Bytes) (i : Nat) : Bool :=
  match bytes[i]? with
  | some b => i == 0 || b < 0x80 || 0xC0 ≤ b
  | none => i == 0 || i == bytes.length

/-- The last boundary at a position or before it. -/
def boundaryUpTo (bytes : Bytes) : Nat → Except Stop Nat
  -- Going back from the first position would be a step below zero.
  | 0 => if isBoundary bytes 0 then return 0 else difference 0 1
  | i + 1 => if isBoundary bytes (i + 1) then return i + 1 else boundaryUpTo bytes i

/-- The number of bytes of the characters that fit `limit` bytes. -/
def cut (bytes : Bytes) (limit : Nat) : Except Stop Nat :=
  if bytes.length ≤ limit then return bytes.length else boundaryUpTo bytes limit

end Octets.Text.Utf8
