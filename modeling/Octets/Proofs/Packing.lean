import Octets.Field.Packing
import Octets.Proofs.Outcome

/-!
# Packing of words

Packing a word by shifts puts its bytes into a field (`Word.run_pack`), and unpacking takes the
word of the bytes out of it (`Word.unpack_eq`). No shift is by a difference below zero.
-/

namespace Octets.Word

open Octets.Action

/-! ## Bytes of a word -/

/-- How far a word is shifted for a byte of a field. -/
def shiftOf (order : ByteOrder) (width i : Nat) : Nat :=
  match order with
  | .big => 8 * (width - 1 - i)
  | .little => 8 * i

/-- The byte of a word at a position of a field. -/
def byteOf (order : ByteOrder) (width word i : Nat) : UInt8 :=
  UInt8.ofNat (word >>> shiftOf order width i)

/-- The shift for a position inside the field is a difference that is not below zero. -/
theorem shift_eq_ok (order : ByteOrder) {width i : Nat} (h : i < width) :
    shift order width i = .ok (shiftOf order width i) := by
  cases order with
  | big =>
    simp only [shift, shiftOf, difference_eq_ok (show 1 ≤ width by omega)]
    show (difference (width - 1) i >>= fun steps => pure (8 * steps)) = _
    rw [difference_eq_ok (by omega)]
    rfl
  | little => rfl

theorem getElem?_littleBytes {width i : Nat} (word : Nat) (h : i < width) :
    (littleBytes width word)[i]? = some (UInt8.ofNat (word >>> (8 * i))) := by
  induction width generalizing word i with
  | zero => omega
  | succ width ih =>
    cases i with
    | zero =>
      have hmod : UInt8.ofNat (word % 256) = UInt8.ofNat word := by
        apply UInt8.toNat_inj.mp
        simp
      simp [littleBytes, hmod]
    | succ i =>
      simp only [littleBytes, List.getElem?_cons_succ]
      rw [ih (word / 256) (by omega), Nat.shiftRight_eq_div_pow, Nat.shiftRight_eq_div_pow,
        Nat.div_div_eq_div_mul, show 8 * (i + 1) = 8 + 8 * i by omega, Nat.pow_add]

/-- The bytes of a word are found by shifts. -/
theorem getElem?_toBytes (order : ByteOrder) {width i : Nat} (word : Nat) (h : i < width) :
    (toBytes order width word)[i]? = some (byteOf order width word i) := by
  cases order with
  | big =>
    unfold toBytes
    rw [List.getElem?_reverse (by simpa using h), length_littleBytes,
      getElem?_littleBytes word (by omega)]
    rfl
  | little => exact getElem?_littleBytes word h

/-! ## Packing -/

/-- Packing sets the bytes at the given positions one after the other. -/
theorem run_packAt (order : ByteOrder) {width : Nat} (word : Nat) {positions : List Nat}
    (h : ∀ i ∈ positions, i < width) (field : Bytes) :
    (packAt order width word positions).run field =
      .ok () (positions.foldl (fun field i => field.set i (byteOf order width word i)) field) := by
  induction positions generalizing field with
  | nil => rfl
  | cons i rest ih =>
    have hi := shift_eq_ok order (h i (by simp))
    simp only [packAt, EStateM.run_bind, run_liftM, hi, outcome_ok, EStateM.run_modify,
      List.foldl_cons]
    exact ih (fun j hj => h j (by simp [hj])) _

/-- What is set at every position of a list is read back at these positions only. -/
theorem getElem?_foldl_set (f : Nat → UInt8) (positions : List Nat) (field : Bytes) (j : Nat) :
    (positions.foldl (fun field i => field.set i (f i)) field)[j]? =
      if j ∈ positions ∧ j < field.length then some (f j) else field[j]? := by
  induction positions generalizing field with
  | nil => simp
  | cons i rest ih =>
    rw [List.foldl_cons, ih, List.length_set, List.getElem?_set]
    by_cases hj : i = j
    · subst hj
      by_cases hlt : i < field.length
      · simp [hlt]
      · simp [hlt]
    · have hne : ¬j = i := fun h => hj h.symm
      simp [hj, hne]

/-- Packing a word puts its bytes in the place of all bytes of the field. -/
theorem run_pack (order : ByteOrder) (word : Nat) (field : Bytes) :
    (pack order word).run field = .ok () (toBytes order field.length word) := by
  simp only [pack, EStateM.run_bind, EStateM.run_get]
  rw [run_packAt order word (fun i hi => List.mem_range.mp hi)]
  congr 1
  apply List.ext_getElem?
  intro j
  -- Every position of the field is set, so nothing of the old bytes is left.
  rw [getElem?_foldl_set (byteOf order field.length word)]
  by_cases hj : j < field.length
  · rw [getElem?_toBytes order word hj, if_pos ⟨List.mem_range.mpr hj, hj⟩]
  · rw [if_neg (fun h => hj h.2), List.getElem?_eq_none (Nat.le_of_not_lt hj),
      List.getElem?_eq_none (by simpa using hj)]

/-! ## Unpacking -/

theorem ofLittle_eq_foldr (bytes : Bytes) :
    ofLittle bytes = bytes.foldr (fun b word => pushed word b) 0 := by
  induction bytes with
  | nil => rfl
  | cons b rest ih =>
    simp only [ofLittle, List.foldr_cons, pushed, ih]
    omega

/-- Unpacking gives the word of the bytes. -/
theorem unpack_eq (order : ByteOrder) (field : Bytes) :
    unpack order field = ofBytes order field := by
  cases order with
  | big =>
    simp only [unpack, ofBytes]
    rw [ofLittle_eq_foldr, List.foldr_reverse]
  | little =>
    simp only [unpack, ofBytes]
    rw [ofLittle_eq_foldr, List.foldl_reverse]

/-- The word of a field is below the power of two of its bits. -/
theorem ofBytes_lt (order : ByteOrder) (field : Bytes) :
    ofBytes order field < 2 ^ (8 * field.length) := by
  rw [Nat.pow_mul]
  cases order with
  | big =>
    have h := ofLittle_lt field.reverse
    rwa [List.length_reverse] at h
  | little => exact ofLittle_lt field

/-- The word of a field inside the bytes fits the bits of the field. -/
theorem ofBytes_range_lt (order : ByteOrder) {content : Bytes} {start width : Nat}
    (h : start + width ≤ content.length) :
    ofBytes order (content.range start (start + width)) < 2 ^ (8 * width) := by
  have hword := ofBytes_lt order (content.range start (start + width))
  rwa [Bytes.length_range_add h] at hword

/-! ## Signs -/

/-- Shifting a word up to the sign and back gives the integer that it stands for. -/
theorem signExtended_eq_ok {word bits : Nat} (hpos : 0 < bits) (hle : bits ≤ 64)
    (hword : word < 2 ^ bits) : signExtended word bits = .ok (toInt true bits word) := by
  unfold signExtended
  rw [difference_eq_ok hle]
  show Except.ok _ = _
  congr 1
  obtain ⟨k, hk⟩ : ∃ k, bits + k = 64 := ⟨64 - bits, by omega⟩
  obtain ⟨m, rfl⟩ : ∃ m, bits = m + 1 := ⟨bits - 1, by omega⟩
  have hsub : 64 - (m + 1) = k := by omega
  have hp : 0 < 2 ^ k := Nat.pow_pos (by decide)
  -- The shift multiplies by `2 ^ k`, which brings the sign to bit 63 and loses no bit.
  have hlow : 2 ^ m * 2 ^ k = 2 ^ 63 := by rw [← Nat.pow_add]; congr 1; omega
  have hhigh : 2 ^ (m + 1) * 2 ^ k = 2 ^ 64 := by rw [← Nat.pow_add, hk]
  have hlt : word * 2 ^ k < 2 ^ 64 := by
    rw [← hhigh]
    exact Nat.mul_lt_mul_of_pos_right hword hp
  have hiff : 2 ^ 63 ≤ word * 2 ^ k ↔ 2 ^ m ≤ word := by
    rw [← hlow]
    exact Nat.mul_le_mul_right_iff hp
  have hpInt : ((2 : Int) ^ k) ≠ 0 := Int.pow_ne_zero (by decide)
  have hcast : ((word * 2 ^ k : Nat) : Int) = word * 2 ^ k := by simp
  have hhighInt : ((2 : Int) ^ (m + 1)) * 2 ^ k = 2 ^ 64 := by exact_mod_cast hhigh
  rw [hsub, Nat.mod_eq_of_lt hlt]
  unfold toInt
  simp only [Bool.true_and, decide_eq_true_eq, Nat.add_sub_cancel]
  by_cases hneg : 2 ^ m ≤ word
  · rw [if_pos (hiff.mpr hneg), if_pos hneg, hcast, ← hhighInt, ← Int.sub_mul,
      Int.mul_ediv_cancel _ hpInt]
  · rw [if_neg (fun h => hneg (hiff.mp h)), if_neg hneg, hcast, Int.mul_ediv_cancel _ hpInt]

/-- An integer in the range of a layout is read back from its word. -/
theorem toInt_ofInt_layout (l : Layout) {n : Int} (hlo : l.min ≤ n) (hhi : n ≤ l.max) :
    toInt l.signed l.bits (ofInt l.bits n) = n := by
  unfold Layout.min at hlo
  unfold Layout.max at hhi
  cases hsigned : l.signed with
  | false =>
    simp only [hsigned, Bool.false_eq_true, if_false] at hlo hhi
    exact toInt_ofInt hlo (by omega)
  | true =>
    simp only [hsigned, if_true] at hlo hhi
    have hpos := l.width_pos
    obtain ⟨m, hm⟩ : ∃ m, l.bits = m + 1 := ⟨l.bits - 1, by unfold Layout.bits; omega⟩
    rw [hm, Nat.add_sub_cancel] at hlo hhi
    rw [hm]
    have hdouble : (2 : Int) ^ (m + 1) = 2 * 2 ^ m := Int.pow_succ' 2 m
    have hcast : ((2 ^ m : Nat) : Int) = 2 ^ m := by simp
    unfold toInt ofInt
    simp only [Bool.true_and, decide_eq_true_eq, Nat.add_sub_cancel]
    by_cases hneg : n < 0
    · -- An integer below zero is kept as its distance from the next power of two.
      have hmod : n % 2 ^ (m + 1) = n + 2 ^ (m + 1) := by
        rw [← Int.add_emod_right, Int.emod_eq_of_lt (by omega) (by omega)]
      rw [hmod, if_pos (by omega)]
      omega
    · rw [Int.emod_eq_of_lt (by omega) (by omega), if_neg (by omega)]
      omega

/-! ## Widths -/

/-- Only the low bytes of a word are written. -/
theorem littleBytes_mod (width word : Nat) :
    littleBytes width (word % 256 ^ width) = littleBytes width word := by
  have h := littleBytes_ofLittle (littleBytes width word)
  rwa [length_littleBytes, ofLittle_littleBytes] at h

theorem toBytes_mod (order : ByteOrder) (width word : Nat) :
    toBytes order width (word % 256 ^ width) = toBytes order width word := by
  cases order <;> simp [toBytes, littleBytes_mod]

/-- A word of 64 bits and one of the bits of a field have the same bytes in the field. -/
theorem toBytes_ofInt (order : ByteOrder) {width : Nat} (h : width ≤ 8) (n : Int) :
    toBytes order width (ofInt 64 n) = toBytes order width (ofInt (8 * width) n) := by
  have hdvd : ((2 : Int) ^ (8 * width)) ∣ 2 ^ 64 :=
    ⟨2 ^ (64 - 8 * width), by rw [← Int.pow_add]; congr 1; omega⟩
  have hpow : (256 : Nat) ^ width = 2 ^ (8 * width) := by rw [Nat.pow_mul]
  have hmod : ofInt 64 n % 256 ^ width = ofInt (8 * width) n := by
    have hnonneg : 0 ≤ n % 2 ^ 64 := Int.emod_nonneg _ (Int.pow_ne_zero (by decide))
    unfold ofInt
    rw [hpow]
    apply Int.ofNat_inj.mp
    rw [Int.natCast_emod, Int.toNat_of_nonneg hnonneg,
      Int.toNat_of_nonneg (Int.emod_nonneg _ (Int.pow_ne_zero (by decide)))]
    have hcast : ((2 ^ (8 * width) : Nat) : Int) = 2 ^ (8 * width) := by simp
    rw [hcast, Int.emod_emod_of_dvd n hdvd]
  rw [← hmod, toBytes_mod]

end Octets.Word
