import Octets.Text.Utf8

/-!
# Grouped digits

A long number is written with `_` before every three digits, counted from the right. The rule
counts bytes of the encoded text and looks at nothing but a leading minus, so it groups whatever
text it is given.
-/

namespace Octets.Text.Grouped

/-- The sequence with a mark before every three elements, counted from the end; none at the
very beginning. -/
def marked {α : Type} (mark : α) : List α → List α
  | [] => []
  | [a] => [a]
  | a :: b :: rest =>
    if (rest.length + 1) % 3 = 0 then a :: mark :: marked mark (b :: rest)
    else a :: marked mark (b :: rest)

/-- The sequence grouped in threes; a leading minus belongs to the first group. -/
def groupBytes : Bytes → Bytes
  | 0x2D :: rest => 0x2D :: marked 0x5F rest
  | bytes => marked 0x5F bytes

/-- The text grouped in threes. -/
def group (text : List Char) : List Char := Utf8.decode (groupBytes (Utf8.encode text))

end Octets.Text.Grouped
