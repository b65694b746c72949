import Mathlib.Algebra.Order.Ring.Int
import Octets.Field.Integer
import Octets.Proofs.Position

/-!
# What integer fields accept

The checks in front of a write, each by exactly what it lets pass. The range of a field is compared
with a number that was rounded toward zero, and all three are numbers of the 64-bit format. Nothing
is lost by that: the ends of the ranges up to six bytes are small integers, and rounding toward
zero gives a number whose value is the integer.

* `Field.accepted_eq_ok_iff`, `Field.acceptedBig_eq_ok_iff` — the values of a field;
* `Field.sizedLayout_eq_ok_iff` — the widths that are given as an argument.
-/

namespace Octets

open Binary64 (IsSmall)

namespace Layout

/-! ## Ranges -/

/-- The ends of the range of a field that holds a number lie on the two sides of zero, and are
small. -/
theorem range_small {l : Layout} (h : l.width ≤ Field.maxNumberWidth) :
    -2 ^ 48 ≤ l.min ∧ l.min ≤ 0 ∧ 0 ≤ l.max ∧ l.max ≤ 2 ^ 48 := by
  have hbits : l.bits ≤ 48 := by
    unfold Field.maxNumberWidth at h
    unfold bits
    omega
  have hall : (2 : Int) ^ l.bits ≤ 2 ^ 48 := pow_le_pow_right₀ (by decide) hbits
  have hhalf : (2 : Int) ^ (l.bits - 1) ≤ 2 ^ 48 := pow_le_pow_right₀ (by decide) (by omega)
  have hallPos : (0 : Int) < 2 ^ l.bits := Int.pow_pos (by decide)
  have hhalfPos : (0 : Int) < 2 ^ (l.bits - 1) := Int.pow_pos (by decide)
  unfold min max
  split <;> omega

/-- The integer that a number stands for in a field: zero if it is not a number, and the number
rounded toward zero where that is in the range of the field. -/
inductive Takes (l : Layout) (x : Binary64) : Int → Prop where
  | notNumber (h : x.isNaN = true) : l.Takes x 0
  | number (hfinite : x.isFinite = true) (hmin : l.min ≤ x.trunc) (hmax : x.trunc ≤ l.max) :
    l.Takes x x.trunc

/-- The number that is compared with the ends of the range has the integer as its value. -/
theorem takes_iff {l : Layout} (hwidth : l.width ≤ Field.maxNumberWidth) {x : Binary64} {n : Int} :
    l.Takes x n ↔
      (if x.isNaN then .zero false else x.truncated : Binary64).HasValue n ∧
        l.min ≤ n ∧ n ≤ l.max := by
  obtain ⟨-, hmin, hmax, -⟩ := range_small hwidth
  constructor
  · intro h
    cases h with
    | notNumber h =>
      rw [if_pos h]
      exact ⟨Binary64.hasValue_zero false, hmin, hmax⟩
    | number hfinite hge hle =>
      rw [Binary64.isNaN_of_isFinite hfinite, if_neg Bool.false_ne_true]
      exact ⟨Binary64.hasValue_truncated hfinite, hge, hle⟩
  · intro h
    obtain ⟨hvalue, hge, hle⟩ := h
    split at hvalue
    · rename_i hnan
      obtain rfl : n = 0 := hvalue.trunc.symm.trans (Binary64.hasValue_zero false).trunc
      exact .notNumber hnan
    · have hfinite := Binary64.isFinite_of_truncated hvalue.1
      obtain rfl : n = x.trunc :=
        hvalue.trunc.symm.trans (Binary64.hasValue_truncated hfinite).trunc
      exact .number hfinite hge hle

end Layout

namespace Field

variable {l : Layout} {x : Binary64} {n : Int} {v : Operand}

/-! ## Values -/

/-- The ends of the range are numbers, so the comparisons with them let pass, of the numbers without
a fraction, those of the integers in the range. -/
theorem compared_eq_ok_iff (hwidth : l.width ≤ maxNumberWidth) (hfloor : x.isFloor = true)
    (f : Fault) :
    (if x.lt (.ofInt l.min) || (Binary64.ofInt l.max).lt x then .error f
      else .ok (x.truncClamped minInt64 maxInt64) : Except Fault Int) = .ok n ↔
        x.HasValue n ∧ l.min ≤ n ∧ n ≤ l.max := by
  obtain ⟨hlow, hmin, hmax, hhigh⟩ := Layout.range_small hwidth
  have hbetween := @Binary64.between_iff x _ _ l.min l.max
    (Binary64.hasValue_ofInt (by unfold IsSmall; omega))
    (Binary64.hasValue_ofInt (by unfold IsSmall; omega)) hfloor
  split
  · rename_i hout
    refine ⟨fun h => (nomatch h), fun h => ?_⟩
    rw [hbetween.mpr ⟨n, h⟩] at hout
    nomatch hout
  · rename_i hin
    obtain ⟨m, hm, hge, hle⟩ := hbetween.mp (Bool.not_eq_true _ ▸ hin)
    rw [hm.truncClamped_eq (by unfold minInt64; omega) (by unfold maxInt64; omega),
      Except.ok.injEq]
    refine ⟨?_, fun h => hm.trunc.symm.trans h.1.trunc⟩
    rintro rfl
    exact ⟨hm, hge, hle⟩

/-- The numbers that a field accepts are those that stand for an integer in it. -/
theorem accepted_eq_ok_iff (hwidth : l.width ≤ maxNumberWidth) :
    accepted l x = .ok n ↔ l.Takes x n := by
  have hfloor : (if x.isNaN then .zero false else x.truncated : Binary64).isFloor = true := by
    split
    · exact (Binary64.hasValue_zero false).isFloor
    · rename_i hnumber
      exact Binary64.isFloor_truncated (Bool.not_eq_true _ ▸ hnumber)
  exact (compared_eq_ok_iff hwidth hfloor _).trans (Layout.takes_iff hwidth).symm

/-- The values that a field of a big integer accepts are the big integers in its range. -/
theorem acceptedBig_eq_ok_iff {signed : Bool} {order : ByteOrder} :
    acceptedBig signed order v = .ok n ↔
      v = .bigInteger n ∧ (Layout.int64 signed order).min ≤ n ∧
        n ≤ (Layout.int64 signed order).max := by
  cases v with
  | bigInteger m =>
    simp only [acceptedBig, Value.bigInteger.injEq]
    split
    · rename_i hout
      refine ⟨fun h => (nomatch h), ?_⟩
      intro h
      obtain ⟨rfl, hmin, hmax⟩ := h
      omega
    · rename_i hin
      rw [Except.ok.injEq]
      refine ⟨?_, And.left⟩
      rintro rfl
      exact ⟨rfl, by omega⟩
  | _ => simp [acceptedBig]

/-! ## Widths -/

theorem checkWidth_eq_ok_iff {u : Unit} : checkWidth l = .ok u ↔ l.width ≤ maxNumberWidth := by
  unfold checkWidth refuse
  split
  · rename_i hwide
    exact ⟨fun h => (nomatch h), fun h => by omega⟩
  · rename_i hwide
    exact ⟨fun _ => by omega, fun _ => rfl⟩

theorem requireOffset_eq_ok_iff {u : Unit} : requireOffset v = .ok u ↔ v.isUndefined = false := by
  unfold requireOffset refuse
  split
  · rename_i hmissing
    simp [hmissing]
  · rename_i hgiven
    simp [hgiven]

/-- The widths are the whole numbers from one to six. -/
theorem fieldWidth_eq_ok_iff {width : Nat} :
    Argument.fieldWidth v = .ok width ↔
      ∃ x, v = .number x ∧ x.HasValue width ∧ 1 ≤ width ∧ width ≤ maxNumberWidth := by
  cases v with
  | number x =>
    have hone : (Binary64.ofNat 1).HasValue 1 := Binary64.hasValue_ofInt (by decide)
    have hsix : (Binary64.ofNat 6).HasValue 6 := Binary64.hasValue_ofInt (by decide)
    simp only [Argument.fieldWidth, Value.number.injEq, exists_eq_left']
    constructor
    · intro h
      split at h
      · nomatch h
      · rename_i hpass
        simp only [Bool.or_eq_true, not_or, Bool.not_eq_true, Bool.not_eq_false'] at hpass
        obtain ⟨⟨hfloor, hge⟩, hle⟩ := hpass
        have hnumber := Binary64.isNaN_of_isFloor hfloor
        rw [Binary64.le_eq_not_lt (Binary64.isNaN_ofNat 1) hnumber, Bool.not_eq_true'] at hge
        rw [Binary64.le_eq_not_lt hnumber (Binary64.isNaN_ofNat 6), Bool.not_eq_true'] at hle
        obtain ⟨m, hm, hlow, hhigh⟩ :=
          (Binary64.between_iff hone hsix hfloor).mp (by rw [hge, hle]; rfl)
        rw [hm.trunc] at h
        cases h
        have hcast : ((m.toNat : Nat) : Int) = m := Int.toNat_of_nonneg (by omega)
        exact ⟨hcast ▸ hm, by omega, by unfold maxNumberWidth; omega⟩
    · intro h
      obtain ⟨hx, hge, hle⟩ := h
      have hnumber := Binary64.isNaN_of_isFinite hx.1
      have hrange := (Binary64.between_iff hone hsix hx.isFloor).mpr
        ⟨width, hx, by omega, by unfold maxNumberWidth at hle; omega⟩
      obtain ⟨hlow, hhigh⟩ := Bool.or_eq_false_iff.mp hrange
      rw [hx.isFloor, Binary64.le_eq_not_lt (Binary64.isNaN_ofNat 1) hnumber, hlow,
        Binary64.le_eq_not_lt hnumber (Binary64.isNaN_ofNat 6), hhigh, hx.trunc]
      rfl
  | _ => simp [Argument.fieldWidth]

/-- The layouts that a width argument gives are those of its value. -/
theorem sizedLayout_eq_ok_iff {signed : Bool} {order : ByteOrder} :
    sizedLayout v signed order = .ok l ↔
      (l.signed = signed ∧ l.order = order) ∧ l.width ≤ maxNumberWidth ∧
        ∃ x, v = .number x ∧ x.HasValue l.width := by
  unfold sizedLayout
  rw [bind_eq_ok]
  constructor
  · intro h
    obtain ⟨width, hwidth, h⟩ := h
    obtain ⟨x, rfl, hx, hge, hle⟩ := fieldWidth_eq_ok_iff.mp hwidth
    unfold maxNumberWidth at hle
    rw [Layout.ofWidth?, dif_pos ⟨by omega, by omega⟩] at h
    cases h
    exact ⟨⟨rfl, rfl⟩, hle, x, rfl, hx⟩
  · intro h
    obtain ⟨⟨rfl, rfl⟩, hle, x, rfl, hx⟩ := h
    refine ⟨l.width, fieldWidth_eq_ok_iff.mpr ⟨x, rfl, hx, l.width_pos, hle⟩, ?_⟩
    rw [Layout.ofWidth?, dif_pos ⟨l.width_pos, l.width_le⟩]
    rfl

end Field

end Octets
