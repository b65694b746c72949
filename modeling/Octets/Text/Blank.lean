/-!
# Blank characters

The characters with the White_Space property, and what is left of a text when they are taken
from both ends.
-/

namespace Octets.Text

/-- The character has the White_Space property. -/
def isBlank (c : Char) : Bool :=
  let n := c.toNat
  (0x09 ≤ n && n ≤ 0x0D) || n == 0x20 || n == 0x85 || n == 0xA0 || n == 0x1680 ||
  (0x2000 ≤ n && n ≤ 0x200A) || n == 0x2028 || n == 0x2029 || n == 0x202F || n == 0x205F ||
  n == 0x3000

/-- Blank, or the byte order mark. -/
def isBlankOrMark (c : Char) : Bool := isBlank c || c.toNat == 0xFEFF

/-- The text without the characters of a class at its two ends. -/
def trim (cls : Char → Bool) (text : List Char) : List Char :=
  ((text.dropWhile cls).reverse.dropWhile cls).reverse

/-- Nothing is taken from a text that neither begins nor ends in the class. -/
theorem trim_eq_self {cls : Char → Bool} {text : List Char}
    (hfirst : ∀ c ∈ text.head?, cls c = false) (hlast : ∀ c ∈ text.getLast?, cls c = false) :
    trim cls text = text := by
  have hdrop : ∀ l : List Char, (∀ c ∈ l.head?, cls c = false) → l.dropWhile cls = l := by
    intro l hl
    cases l with
    | nil => rfl
    | cons c r => simp [List.dropWhile, hl c (by simp)]
  unfold trim
  rw [hdrop text hfirst, hdrop text.reverse (by simpa using hlast), List.reverse_reverse]

end Octets.Text
