import Octets.Text.Unshown

/-!
# Escaped text

How a text that was not understood is repeated in a message: between double quotes, with the
double quote and the backslash escaped, short escapes for the common controls, and the number of
every other character that is not shown as it is.
-/

namespace Octets.Text.Escaped

/-- A character between double quotes. -/
def escape (c : Char) : List Char :=
  if c = '\x00' then ['\\', '0']
  else if c = '\t' then ['\\', 't']
  else if c = '\n' then ['\\', 'n']
  else if c = '\r' then ['\\', 'r']
  else if c = '"' then ['\\', '"']
  else if c = '\\' then ['\\', '\\']
  else if Unshown.isUnshown c then
    '\\' :: 'u' :: '\x7b' :: (Nat.toDigits 16 c.toNat ++ ['\x7d'])
  else [c]

/-- The text between double quotes. -/
def escaped (text : String) : String :=
  String.ofList ('"' :: (text.toList.flatMap escape ++ ['"']))

end Octets.Text.Escaped
