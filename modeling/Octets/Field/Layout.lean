import Octets.Number.Power

/-!
# Layout of integer fields

An integer field has a width of one to eight bytes, a sign or none, and a byte order. The two
texts of its range are those of messages: for numbers, and for big integers.
-/

namespace Octets

/-- The order of the bytes of a field. -/
inductive ByteOrder where
  /-- Most significant byte first. -/
  | big
  /-- Least significant byte first. -/
  | little
deriving DecidableEq

/-- The layout of an integer field. -/
structure Layout where
  width : Nat
  signed : Bool
  order : ByteOrder
  width_pos : 0 < width
  width_le : width ≤ 8
deriving DecidableEq

namespace Layout

/-- The layout with the given width, if there is one. -/
def ofWidth? (width : Nat) (signed : Bool) (order : ByteOrder) : Option Layout :=
  if h : 0 < width ∧ width ≤ 8 then some ⟨width, signed, order, h.1, h.2⟩ else none

/-- The layout of a 64-bit field. -/
def int64 (signed : Bool) (order : ByteOrder) : Layout :=
  ⟨8, signed, order, by decide, by decide⟩

/-- The number of bits. -/
def bits (l : Layout) : Nat := 8 * l.width

/-- The least value. -/
def min (l : Layout) : Int := if l.signed then -2 ^ (l.bits - 1) else 0

/-- The greatest value. -/
def max (l : Layout) : Int := if l.signed then 2 ^ (l.bits - 1) - 1 else 2 ^ l.bits - 1

/-- The range in messages about numbers: spelled out up to four bytes, by powers of two beyond. -/
def rangeText (l : Layout) : String :=
  if l.width ≤ 4 then ">= " ++ toString l.min ++ " and <= " ++ toString l.max
  else if l.signed then
    ">= -(2 ** " ++ toString (l.bits - 1) ++ ") and < 2 ** " ++ toString (l.bits - 1)
  else ">= 0 and < 2 ** " ++ toString l.bits

/-- The range in messages about big integers. -/
def bigRangeText (l : Layout) : String :=
  if l.signed then
    ">= -(2n ** " ++ toString (l.bits - 1) ++ "n) and < 2 ** " ++ toString (l.bits - 1) ++ "n"
  else ">= 0n and < 2n ** " ++ toString l.bits ++ "n"

end Layout

end Octets
