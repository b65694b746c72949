/-!
# Digits

The value of a digit in a base up to sixteen. Digits are given by code number, so that the same
rule serves the characters of a text and the bytes of its encoded form.
-/

namespace Octets.Text

/-- The value of the hexadecimal digit with the given code; both cases of the letters count. -/
def digitValue? (code : Nat) : Option Nat :=
  if 0x30 ≤ code ∧ code ≤ 0x39 then some (code - 0x30)
  else if 0x41 ≤ code ∧ code ≤ 0x46 then some (code - 0x41 + 10)
  else if 0x61 ≤ code ∧ code ≤ 0x66 then some (code - 0x61 + 10)
  else none

/-- The value of a digit of the given base. -/
def digitIn? (base : Nat) (c : Char) : Option Nat :=
  (digitValue? c.toNat).filter (decide <| · < base)

/-- The lower case digit of a value below sixteen. -/
def lowerDigit (d : Nat) : Char :=
  if d < 10 then Char.ofNat (0x30 + d) else Char.ofNat (0x61 + (d - 10))

/-- A digit is a character of one byte. -/
theorem lowerDigit_lt {d : Nat} (h : d < 16) : (lowerDigit d).toNat < 0x80 := by
  have every : ∀ d < 16, (lowerDigit d).toNat < 0x80 := by decide
  exact every d h

/-- A digit has the value that it was written for. -/
theorem digitValue?_lowerDigit {d : Nat} (h : d < 16) :
    digitValue? (lowerDigit d).toNat = some d := by
  have every : ∀ d < 16, digitValue? (lowerDigit d).toNat = some d := by decide
  exact every d h

/-- The upper case digit of a value below sixteen. -/
def upperDigit (d : Nat) : Char :=
  if d < 10 then Char.ofNat (0x30 + d) else Char.ofNat (0x41 + (d - 10))

/-- Decimal digits have codes in a row. -/
theorem toNat_of_isDigit {c : Char} (h : c.isDigit = true) : 0x30 ≤ c.toNat ∧ c.toNat ≤ 0x39 := by
  simp only [Char.isDigit, Bool.and_eq_true, decide_eq_true_eq, ge_iff_le,
    UInt32.le_iff_toNat_le] at h
  exact h

/-- The decimal text of a natural number. -/
def decimal (n : Nat) : List Char := Nat.toDigits 10 n

end Octets.Text
