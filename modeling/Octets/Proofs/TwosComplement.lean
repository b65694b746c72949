import Mathlib.Algebra.BigOperators.Intervals
import Mathlib.Algebra.BigOperators.Ring.Finset
import Mathlib.Data.Int.ModEq
import Mathlib.Tactic.Ring
import Octets.Proofs.Packing

/-!
# Words as digits

The bytes of a field are digits to the base 256, and a byte order says which power of 256 each of
them stands for (`Word.weight`). What a field holds and what is put into it are told from that
alone, without shifts: the word of a field is the sum of its digits (`Word.ofBytes_eq_sum`), and an
integer in two's complement has the digits of its remainder (`Word.getElem?_toBytes_ofInt`). With a
sign, the word stands for the one integer in the range that has it as its remainder
(`Word.toInt_eq_iff`).
-/

namespace Octets

/-- The other byte order. -/
def ByteOrder.opposite : ByteOrder → ByteOrder
  | .big => .little
  | .little => .big

@[simp] theorem ByteOrder.opposite_opposite (order : ByteOrder) :
    order.opposite.opposite = order := by
  cases order <;> rfl

namespace Word

variable {width bits word i : Nat}

/-! ## Digits -/

/-- The power of 256 that the byte at a place of a field stands for. -/
def weight (order : ByteOrder) (width i : Nat) : Nat :=
  match order with
  | .big => width - 1 - i
  | .little => i

theorem shiftOf_eq (order : ByteOrder) (width i : Nat) :
    shiftOf order width i = 8 * weight order width i := by
  cases order <;> rfl

/-- The byte at a place of a field that holds an integer in two's complement: the remainder of the
integer modulo the number of words is written with the digits of the field. -/
def twosComplement (order : ByteOrder) (width : Nat) (n : Int) (i : Nat) : UInt8 :=
  UInt8.ofNat (n % 256 ^ width / 256 ^ weight order width i % 256).toNat

/-- The bytes that are written for an integer are its two's complement. -/
theorem getElem?_toBytes_ofInt (order : ByteOrder) (n : Int) (h : i < width) :
    (toBytes order width (ofInt (8 * width) n))[i]? = some (twosComplement order width n i) := by
  have hbase : (256 : Int) ^ width = 2 ^ (8 * width) := by rw [Int.pow_mul]; rfl
  have hnonneg : 0 ≤ n % 2 ^ (8 * width) := Int.emod_nonneg _ (Int.pow_ne_zero (by decide))
  have hdigit : (n % 256 ^ width / 256 ^ weight order width i % 256).toNat =
      ofInt (8 * width) n / 256 ^ weight order width i % 256 := by
    apply Int.ofNat_inj.mp
    rw [hbase, Int.toNat_of_nonneg (Int.emod_nonneg _ (by decide)), ofInt]
    push_cast
    rw [Int.toNat_of_nonneg hnonneg]
  rw [getElem?_toBytes order _ h, byteOf, twosComplement, hdigit, shiftOf_eq,
    Nat.shiftRight_eq_div_pow, Nat.pow_mul]
  congr 1
  apply UInt8.toNat_inj.mp
  simp

/-! ## Sums of digits -/

theorem ofLittle_eq_sum (field : Bytes) :
    ofLittle field = ∑ i ∈ Finset.range field.length, (field.getD i 0).toNat * 256 ^ i := by
  induction field with
  | nil => rfl
  | cons b rest ih =>
    rw [List.length_cons, Finset.sum_range_succ', ofLittle, ih, Finset.mul_sum, Nat.add_comm]
    congr 1
    · refine Finset.sum_congr rfl fun i _ => ?_
      rw [List.getD_cons_succ, Nat.pow_succ]
      ring
    · simp

/-- The word of a field is the sum of its digits. -/
theorem ofBytes_eq_sum (order : ByteOrder) (field : Bytes) :
    ofBytes order field = ∑ i ∈ Finset.range field.length,
      (field.getD i 0).toNat * 256 ^ weight order field.length i := by
  cases order with
  | big =>
    rw [ofBytes, ofLittle_eq_sum, List.length_reverse, ← Finset.sum_range_reflect]
    refine Finset.sum_congr rfl fun i hi => ?_
    rw [Finset.mem_range] at hi
    rw [weight, List.getD_eq_getElem?_getD, List.getD_eq_getElem?_getD,
      List.getElem?_reverse (by omega), show field.length - 1 - (field.length - 1 - i) = i by omega]
  | little => exact ofLittle_eq_sum field

theorem ofLittle_append (a b : Bytes) :
    ofLittle (a ++ b) = ofLittle a + 256 ^ a.length * ofLittle b := by
  induction a with
  | nil => simp [ofLittle]
  | cons c rest ih =>
    rw [List.cons_append, ofLittle, ofLittle, ih, List.length_cons, Nat.pow_succ]
    ring

/-- Most significant byte first, the first bytes of a field are the upper digits. -/
theorem ofBytes_big_append (a b : Bytes) :
    ofBytes .big (a ++ b) = ofBytes .big a * 256 ^ b.length + ofBytes .big b := by
  rw [ofBytes, ofBytes, ofBytes, List.reverse_append, ofLittle_append, List.length_reverse]
  ring

/-- The reversed bytes have the word of the bytes in the other order. -/
theorem ofBytes_reverse (order : ByteOrder) (field : Bytes) :
    ofBytes order field.reverse = ofBytes order.opposite field := by
  cases order with
  | big => rw [ofBytes, List.reverse_reverse]; rfl
  | little => rfl

/-! ## Signs -/

/-- The integer of a word is congruent to it. -/
theorem toInt_modEq (signed : Bool) (bits word : Nat) :
    toInt signed bits word ≡ word [ZMOD 2 ^ bits] := by
  unfold toInt
  split
  · exact Int.sub_modulus_modEq_iff.mpr (Int.ModEq.refl _)
  · rfl

/-- The integer of a signed word is in the range around zero. -/
theorem toInt_bounds (hpos : 0 < bits) (hword : word < 2 ^ bits) :
    -2 ^ (bits - 1) ≤ toInt true bits word ∧ toInt true bits word < 2 ^ (bits - 1) := by
  have hdouble : (2 : Nat) ^ bits = 2 * 2 ^ (bits - 1) := by
    rw [← Nat.pow_succ', Nat.succ_eq_add_one, Nat.sub_add_cancel hpos]
  have hcast : ((2 ^ bits : Nat) : Int) = 2 ^ bits := by simp
  have hhalf : ((2 ^ (bits - 1) : Nat) : Int) = 2 ^ (bits - 1) := by simp
  unfold toInt
  simp only [Bool.true_and, decide_eq_true_eq]
  split <;> omega

/-- The integer of a signed word is the one in the range that is congruent to the word. -/
theorem toInt_eq_iff (hpos : 0 < bits) (hword : word < 2 ^ bits) {n : Int} :
    n = toInt true bits word ↔
      -2 ^ (bits - 1) ≤ n ∧ n < 2 ^ (bits - 1) ∧ n ≡ word [ZMOD 2 ^ bits] := by
  obtain ⟨hlow, hhigh⟩ := toInt_bounds hpos hword
  have hmod := toInt_modEq true bits word
  constructor
  · rintro rfl
    exact ⟨hlow, hhigh, hmod⟩
  · intro h
    obtain ⟨hge, hlt, hn⟩ := h
    -- Two integers of the range are less than the modulus apart.
    have hdouble : (2 : Int) ^ bits = 2 * 2 ^ (bits - 1) := by
      rw [← Int.pow_succ', Nat.sub_add_cancel hpos]
    have hdvd : (2 : Int) ^ bits ∣ toInt true bits word - n := (hn.trans hmod.symm).dvd
    have habs : (toInt true bits word - n).natAbs < ((2 : Int) ^ bits).natAbs := by omega
    have hzero := Int.eq_zero_of_dvd_of_natAbs_lt_natAbs hdvd habs
    omega

/-- The integer of a word has the word as its remainder. -/
theorem ofInt_toInt (signed : Bool) (hword : word < 2 ^ bits) :
    ofInt bits (toInt signed bits word) = word := by
  have hlt : (word : Int) < 2 ^ bits := by exact_mod_cast hword
  have hmod : toInt signed bits word % 2 ^ bits = word :=
    (toInt_modEq signed bits word).eq.trans (Int.emod_eq_of_lt (Int.natCast_nonneg word) hlt)
  rw [ofInt, hmod, Int.toNat_natCast]

/-- The upper digits of a signed word carry its sign. -/
theorem toInt_append (signed : Bool) {upper lower m n : Nat} (hm : 0 < m)
    (hlower : lower < 256 ^ n) :
    toInt signed (8 * (m + n)) (upper * 256 ^ n + lower) =
      toInt signed (8 * m) upper * 256 ^ n + lower := by
  have hlow : (2 : Nat) ^ (8 * (m + n) - 1) = 2 ^ (8 * m - 1) * 256 ^ n := by
    rw [show 8 * (m + n) - 1 = 8 * m - 1 + 8 * n by omega, Nat.pow_add, Nat.pow_mul 2 8 n]
  have hsign : 2 ^ (8 * (m + n) - 1) ≤ upper * 256 ^ n + lower ↔ 2 ^ (8 * m - 1) ≤ upper := by
    rw [hlow]
    constructor
    · intro h
      by_contra hlt
      have hstep : (upper + 1) * 256 ^ n ≤ 2 ^ (8 * m - 1) * 256 ^ n :=
        Nat.mul_le_mul_right _ (Nat.lt_of_not_le hlt)
      rw [Nat.add_mul, Nat.one_mul] at hstep
      omega
    · intro h
      exact Nat.le_trans (Nat.mul_le_mul_right _ h) (Nat.le_add_right _ _)
  unfold toInt
  simp only [hsign]
  split
  · rw [show 8 * (m + n) = 8 * m + 8 * n from Nat.mul_add 8 m n, pow_add, pow_mul 2 8 n]
    push_cast
    ring
  · push_cast
    rfl

end Word

end Octets
