import Octets.Text.Digit

/-!
# Quoted text

How a text is shown in a message: between quotes, with control characters, the backslash and the
chosen quote escaped. Single quotes are preferred; a text with a single quote takes double
quotes, one with both takes backticks, unless it has a backtick or opens a placeholder, and then
single quotes are used after all.
-/

namespace Octets.Text.Quoted

/-- The text contains a dollar sign before an opening brace. -/
def opensPlaceholder : List Char → Bool
  | '$' :: '\x7b' :: _ => true
  | _ :: rest => opensPlaceholder rest
  | [] => false

/-- The quote that a text is put between. -/
def quoteFor (text : List Char) : Char :=
  if !text.contains '\'' then '\''
  else if !text.contains '"' then '"'
  else if !text.contains '\x60' && !opensPlaceholder text then '\x60'
  else '\''

/-- A character between the given quotes. -/
def escape (quote c : Char) : List Char :=
  if c = '\n' then ['\\', 'n']
  else if c = '\t' then ['\\', 't']
  else if c = '\r' then ['\\', 'r']
  else if c = '\x08' then ['\\', 'b']
  else if c = '\x0c' then ['\\', 'f']
  else if c = '\x0b' then ['\\', 'v']
  else if c = '\\' then ['\\', '\\']
  else if c = quote then ['\\', c]
  else if c.toNat < 0x20 || c.toNat = 0x7F then
    ['\\', 'x', upperDigit (c.toNat / 16), upperDigit (c.toNat % 16)]
  else [c]

/-- The text between quotes. -/
def quoted (text : List Char) : List Char :=
  quoteFor text :: (text.flatMap (escape (quoteFor text)) ++ [quoteFor text])

end Octets.Text.Quoted
