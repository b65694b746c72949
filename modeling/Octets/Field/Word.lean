import Octets.Bytes
import Octets.Field.Layout

/-!
# Words

A word is a natural number written in a given number of bytes. `Word.toBytes` writes the low
bytes of a number and `Word.ofBytes` reads them, in either byte order; `Word.ofInt` and
`Word.toInt` pass between integers and words in two's complement.
-/

namespace Octets.Word

/-- The low `width` bytes of a number, least significant first. -/
def littleBytes : Nat → Nat → Bytes
  | 0, _ => []
  | width + 1, n => UInt8.ofNat (n % 256) :: littleBytes width (n / 256)

/-- The number of a byte sequence, least significant first. -/
def ofLittle : Bytes → Nat
  | [] => 0
  | b :: rest => b.toNat + 256 * ofLittle rest

/-- The low `width` bytes of a number. -/
def toBytes (order : ByteOrder) (width n : Nat) : Bytes :=
  match order with
  | .big => (littleBytes width n).reverse
  | .little => littleBytes width n

/-- The number of a byte sequence. -/
def ofBytes (order : ByteOrder) (bytes : Bytes) : Nat :=
  match order with
  | .big => ofLittle bytes.reverse
  | .little => ofLittle bytes

@[simp] theorem length_littleBytes (width n : Nat) : (littleBytes width n).length = width := by
  induction width generalizing n with
  | zero => rfl
  | succ width ih => simp [littleBytes, ih]

@[simp] theorem length_toBytes (order : ByteOrder) (width n : Nat) :
    (toBytes order width n).length = width := by
  cases order <;> simp [toBytes]

theorem ofLittle_littleBytes (width n : Nat) :
    ofLittle (littleBytes width n) = n % 256 ^ width := by
  induction width generalizing n with
  | zero => simp [littleBytes, ofLittle, Nat.mod_one]
  | succ width ih =>
    simp only [littleBytes, ofLittle, ih]
    rw [UInt8.toNat_ofNat_of_lt' (Nat.mod_lt _ (by decide)), Nat.pow_succ, Nat.mul_comm _ 256,
      Nat.mod_mul]

/-- A word is read back in the order in which it was written. -/
@[simp] theorem ofBytes_toBytes (order : ByteOrder) (width n : Nat) :
    ofBytes order (toBytes order width n) = n % 256 ^ width := by
  cases order <;> simp [ofBytes, toBytes, ofLittle_littleBytes]

theorem ofLittle_lt (bytes : Bytes) : ofLittle bytes < 256 ^ bytes.length := by
  induction bytes with
  | nil => simp [ofLittle]
  | cons b rest ih =>
    have := b.toNat_lt
    simp only [ofLittle, List.length_cons, Nat.pow_succ]
    omega

/-- The bytes of a number are those it was read from. -/
theorem littleBytes_ofLittle (bytes : Bytes) :
    littleBytes bytes.length (ofLittle bytes) = bytes := by
  induction bytes with
  | nil => rfl
  | cons b rest ih =>
    have hb := b.toNat_lt
    simp only [List.length_cons, littleBytes, ofLittle]
    rw [Nat.add_mul_mod_self_left, Nat.mod_eq_of_lt hb, Nat.add_mul_div_left _ _ (by decide),
      Nat.div_eq_of_lt hb, Nat.zero_add, ih, UInt8.ofNat_toNat]

/-- The word of an integer in two's complement. -/
def ofInt (bits : Nat) (n : Int) : Nat := (n % 2 ^ bits).toNat

/-- The integer of a word: a signed word counts down from its upper half. -/
def toInt (signed : Bool) (bits : Nat) (word : Nat) : Int :=
  if signed && decide (2 ^ (bits - 1) ≤ word) then (word : Int) - 2 ^ bits else word

/-- The word of an integer fits its bits. -/
theorem ofInt_lt (bits : Nat) (n : Int) : ofInt bits n < 2 ^ bits := by
  have hpos : (0 : Int) < 2 ^ bits := Int.pow_pos (by decide)
  have hlt := Int.emod_lt_of_pos n hpos
  have hcast : ((2 ^ bits : Nat) : Int) = 2 ^ bits := by simp
  unfold ofInt
  omega

/-- An unsigned integer is read back from its word. -/
theorem toInt_ofInt {bits : Nat} {n : Int} (hlo : 0 ≤ n) (hhi : n < 2 ^ bits) :
    toInt false bits (ofInt bits n) = n := by
  simp only [toInt, Bool.false_and, Bool.false_eq_true, if_false, ofInt]
  rw [Int.emod_eq_of_lt hlo hhi, Int.toNat_of_nonneg hlo]

end Octets.Word
