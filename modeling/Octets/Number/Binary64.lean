import Octets.Number.Rounding

/-!
# Binary64 numbers

A `Binary64` is a sign and a rank (`Octets.Number.Rounding`); the two together are its 64-bit
pattern. Its one view is `scaled`, the value in units of `2 ^ -1074` as an integer: every finite
number is a whole number of these units, and infinity stands at `2 ^ 2098`, just after the last
finite number. Comparison is comparison of `scaled`, and arithmetic is exact arithmetic on
`scaled` followed by one rounding.

The ranks above the rank of infinity are the patterns that are not a number; `nan` is the one
that this library makes.
-/

namespace Octets

/-- A number in the 64-bit binary format. -/
structure Binary64 where
  negative : Bool
  rank : Nat
  rank_lt : rank < 0x8000000000000000
deriving DecidableEq

namespace Binary64

/-- The rank of infinity. -/
def infinityRank : Nat := 0x7FF0000000000000

theorem infinityRank_eq : infinityRank = Format.binary64.infinityRank := by decide

/-- The least positive number, the unit of `scaled`, is `2 ^ -unitExponent`. -/
def unitExponent : Nat := 1074

/-- One, counted in units of the least positive number. -/
def one : Nat := 2 ^ unitExponent

/-! ## Bit patterns -/

/-- The number with the given 64-bit pattern; further bits are ignored. -/
def ofBits (pattern : Nat) : Binary64 :=
  ⟨pattern / 0x8000000000000000 % 2 == 1, pattern % 0x8000000000000000, Nat.mod_lt _ (by decide)⟩

/-- The 64-bit pattern of a number. -/
def bits (x : Binary64) : Nat :=
  (if x.negative then 0x8000000000000000 else 0) + x.rank

theorem bits_lt (x : Binary64) : x.bits < 0x10000000000000000 := by
  have := x.rank_lt
  unfold bits
  split <;> omega

/-- A number is read back from its pattern. -/
@[simp] theorem ofBits_bits (x : Binary64) : ofBits x.bits = x := by
  obtain ⟨negative, rank, h⟩ := x
  cases negative
  · have hb : bits ⟨false, rank, h⟩ = rank := by simp [bits]
    simp only [ofBits, hb, Binary64.mk.injEq, beq_eq_false_iff_ne, ne_eq]
    omega
  · have hb : bits ⟨true, rank, h⟩ = 0x8000000000000000 + rank := by simp [bits]
    simp only [ofBits, hb, Binary64.mk.injEq, beq_iff_eq]
    omega

/-- A sign above a rank is put together again from its two parts. -/
theorem sign_add_rank {half pattern : Nat} (h : pattern < half * 2) :
    (if pattern / half % 2 == 1 then half else 0) + pattern % half = pattern := by
  have hparts := Nat.div_add_mod pattern half
  have hsign : pattern / half < 2 := Nat.div_lt_of_lt_mul h
  generalize pattern / half = sign at hparts hsign ⊢
  obtain rfl | rfl : sign = 0 ∨ sign = 1 := by omega
  · simpa using hparts
  · simpa using hparts

/-- A pattern of 64 bits is the one of its number. -/
theorem bits_ofBits {pattern : Nat} (h : pattern < 0x10000000000000000) :
    (ofBits pattern).bits = pattern :=
  sign_add_rank h

/-! ## Kinds of numbers -/

/-- The canonical value that is not a number. -/
def nan : Binary64 := ⟨false, 0x7FF8000000000000, by decide⟩

def infinity (negative : Bool) : Binary64 := ⟨negative, infinityRank, by decide⟩

def zero (negative : Bool) : Binary64 := ⟨negative, 0, by decide⟩

def isNaN (x : Binary64) : Bool := decide (infinityRank < x.rank)

def isInfinite (x : Binary64) : Bool := decide (x.rank = infinityRank)

def isFinite (x : Binary64) : Bool := decide (x.rank < infinityRank)

/-- Positive or negative zero. -/
def isZero (x : Binary64) : Bool := decide (x.rank = 0)

/-- Everything that is not a number becomes `nan`; numbers are kept. -/
def canonical (x : Binary64) : Binary64 := if x.isNaN then nan else x

/-- The pattern of a number is kept. -/
theorem bits_canonical_ofBits {pattern : Nat} (h : pattern < 0x10000000000000000)
    (hnumber : pattern % 0x8000000000000000 ≤ infinityRank) :
    (ofBits pattern).canonical.bits = pattern := by
  have hnan : (ofBits pattern).isNaN = false := decide_eq_false (Nat.not_lt.mpr hnumber)
  rw [canonical, hnan, if_neg Bool.false_ne_true, bits_ofBits h]

/-! ## Value -/

/-- The distance from zero in units of `2 ^ -1074`. -/
def magnitude (x : Binary64) : Nat := Format.binary64.magnitude x.rank

/-- The value in units of `2 ^ -1074`. -/
def scaled (x : Binary64) : Int :=
  if x.negative then -(x.magnitude : Int) else x.magnitude

/-- Strictly below; never true of something that is not a number. -/
def lt (x y : Binary64) : Bool :=
  !x.isNaN && !y.isNaN && decide (x.scaled < y.scaled)

/-- Below or of the same value; never true of something that is not a number. -/
def le (x y : Binary64) : Bool :=
  !x.isNaN && !y.isNaN && decide (x.scaled ≤ y.scaled)

/-- The value rounded toward zero; what is not finite has no such integer, and gives that of its
place on the scale. -/
def trunc (x : Binary64) : Int := x.scaled.tdiv one

/-- The value rounded toward negative infinity. -/
def floor (x : Binary64) : Int := x.scaled.fdiv one

/-- A finite number without a fraction. -/
def isWhole (x : Binary64) : Bool := x.isFinite && decide (x.magnitude % one = 0)

/-- The value rounded toward zero and moved into `[lo, hi]`; what is not a number counts as
zero. -/
def truncClamped (lo hi : Int) (x : Binary64) : Int :=
  if x.isNaN then max lo (min hi 0) else max lo (min hi x.trunc)

/-- The value rounded toward zero and moved into the unsigned 64-bit integers. -/
def toNatural (x : Binary64) : Nat := (x.truncClamped 0 0xFFFFFFFFFFFFFFFF).toNat

/-- The value rounded toward zero, modulo `256`; zero for what is not finite. -/
def toByte (x : Binary64) : UInt8 :=
  if x.isFinite then UInt8.ofNat (x.trunc % 256).toNat else 0

/-! ## Rounding -/

/-- The number nearest to `num / den` units of `2 ^ -1074`, with the given sign. -/
def ofRatio (negative : Bool) (num den : Nat) : Binary64 :=
  ⟨negative, Format.binary64.nearestRank num den,
    Nat.lt_of_le_of_lt (Format.nearestRank_le _ _ _) (by decide)⟩

/-- The number nearest to a whole number of units of `2 ^ -1074`. -/
def ofScaled (units : Int) : Binary64 := ofRatio (decide (units < 0)) units.natAbs 1

/-- The number nearest to an integer. -/
def ofInt (n : Int) : Binary64 := ofScaled (n * one)

/-- The number nearest to a natural number. -/
def ofNat (n : Nat) : Binary64 := ofInt n

/-- The number rounded toward zero; what is not finite is kept. -/
def truncated (x : Binary64) : Binary64 := if x.isFinite then ofInt x.trunc else x

/-! ## Arithmetic -/

/-- The number of the opposite sign. -/
def neg (x : Binary64) : Binary64 := { x with negative := !x.negative }

/-- The rounded sum. A sum of zero is negative only where both terms are. -/
def add (x y : Binary64) : Binary64 :=
  if x.isNaN || y.isNaN then nan
  else if x.isInfinite then
    if y.isInfinite && x.negative != y.negative then nan else x
  else if y.isInfinite then y
  else if x.scaled + y.scaled = 0 then zero (x.negative && y.negative)
  else ofScaled (x.scaled + y.scaled)

/-- The rounded difference. -/
def sub (x y : Binary64) : Binary64 := x.add y.neg

/-- The rounded product. -/
def mul (x y : Binary64) : Binary64 :=
  if x.isNaN || y.isNaN then nan
  else if x.isInfinite || y.isInfinite then
    if x.isZero || y.isZero then nan else infinity (x.negative != y.negative)
  else ofRatio (x.negative != y.negative) (x.magnitude * y.magnitude) one

/-- The rounded quotient. -/
def div (x y : Binary64) : Binary64 :=
  if x.isNaN || y.isNaN then nan
  else if x.isInfinite then
    if y.isInfinite then nan else infinity (x.negative != y.negative)
  else if y.isInfinite then zero (x.negative != y.negative)
  else if y.isZero then
    if x.isZero then nan else infinity (x.negative != y.negative)
  else ofRatio (x.negative != y.negative) (x.magnitude * one) y.magnitude

end Binary64

end Octets
