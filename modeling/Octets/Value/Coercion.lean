import Octets.Fault
import Octets.Number.Text

/-!
# Coercion

A missing argument is not a number; null and false are zero, true is one; a text stands for the
number that it spells, and bytes for the number spelled by their comma-separated values. A big
integer is refused.
-/

namespace Octets.Value

/-- The number of an argument. -/
def toNumber : Operand → Except Fault Binary64
  | .undefined => .ok .nan
  | .null => .ok (.zero false)
  | .bool b => .ok (if b then .ofNat 1 else .zero false)
  | .number x => .ok x
  | .bigInteger _ => .error .bigIntegerAsNumber
  | .text s => .ok (.ofText s)
  | .bytes content => .ok (.ofText (Bytes.listed content))
  | .buffer content => .ok (.ofText (Bytes.listed content))

/-- The byte of an argument: its number, rounded toward zero, modulo 256. -/
def toByte (v : Operand) : Except Fault UInt8 := v.toNumber.map Binary64.toByte

/-- Coercion fails for big integers only. -/
theorem toNumber_eq_error_iff (v : Operand) (e : Fault) :
    v.toNumber = .error e ↔ e = .bigIntegerAsNumber ∧ ∃ n, v = .bigInteger n := by
  cases v <;> simp [toNumber, eq_comm]

end Octets.Value
