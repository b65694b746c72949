import Octets.Content.Transcript
import Octets.Proofs.Outcome
import Octets.Proofs.SmallNumber

/-!
# Checked positions lie in the bytes

What the checks of `Octets.Argument` and of `Octets.Content.Transcript` promise about the positions
that they let pass, as long as a block has at most `maxLength` bytes. The arguments are numbers of
any kind, and so are the comparisons; what is promised is about the natural numbers that the
operations work with.
-/

namespace Octets

open Binary64 (IsSmall scaled_ofInt scaled_ofNat scaled_le_of_lt_eq_false)

theorem small_of_le_maxLength {n : Nat} (h : n ≤ maxLength) : IsSmall n := by
  unfold maxLength at h
  unfold IsSmall
  omega

namespace Argument

variable {v : Operand} {name : String} {n length width : Nat}

/-! ## Positions -/

/-- A whole number lies in the range of positions where its value does. -/
theorem inRange_iff {x : Binary64} {value : Int} {max : Nat} (hmax : max ≤ maxLength)
    (hx : x.HasValue value) :
    (x.lt (.zero false) || (Binary64.ofNat max).lt x) = false ↔ 0 ≤ value ∧ value ≤ max := by
  have hnumber := Binary64.isNaN_of_isFinite hx.1
  have hzero : (Binary64.zero false).isNaN = false := rfl
  simp only [Binary64.lt, hnumber, hzero, Binary64.isNaN_ofNat, Binary64.scaled_zero, hx.2,
    scaled_ofNat (small_of_le_maxLength hmax), Bool.not_false, Bool.true_and, Bool.or_eq_false_iff,
    decide_eq_false_iff_not, Int.not_lt]
  exact and_congr (Int.mul_nonneg_iff_of_pos_right Binary64.one_pos)
    (Int.mul_le_mul_right Binary64.one_pos)

/-- A whole number in the range of positions is the same among the integers. -/
theorem truncClamped_of_hasValue {x : Binary64} {value : Int} {max : Nat} (hmax : max ≤ maxLength)
    (hx : x.HasValue value) (hlow : 0 ≤ value) (hhigh : value ≤ max) :
    x.truncClamped minInt64 maxInt64 = value := by
  unfold maxLength at hmax
  exact hx.truncClamped_eq (by unfold minInt64; omega) (by unfold maxInt64; omega)

/-- The positions are the whole numbers in the range. -/
theorem position_eq_ok_iff {max : Nat} (hmax : max ≤ maxLength) :
    position v name max = .ok n ↔ ∃ x, v = .number x ∧ x.HasValue n ∧ n ≤ max := by
  constructor
  · intro h
    cases v with
    | number x =>
      simp only [position, integer] at h
      split at h
      · cases h
      · rename_i hwhole
        have hx := Binary64.HasValue.of_isWhole (by simpa using hwhole)
        split at h
        · cases h
        · rename_i hrange
          obtain ⟨hlow, hhigh⟩ := (inRange_iff hmax hx).mp (by simpa using hrange)
          rw [truncClamped_of_hasValue hmax hx hlow hhigh] at h
          obtain rfl : x.trunc.toNat = n := by cases h; rfl
          exact ⟨x, rfl, by rwa [Int.toNat_of_nonneg hlow], by omega⟩
    | _ => cases h
  · intro h
    obtain ⟨x, rfl, hx, hle⟩ := h
    have hlow := Int.natCast_nonneg n
    have hhigh : (n : Int) ≤ max := Int.ofNat_le.mpr hle
    have hrange := (inRange_iff hmax hx).mpr ⟨hlow, hhigh⟩
    simp only [position, integer, hx.isWhole, hrange, truncClamped_of_hasValue hmax hx hlow hhigh]
    rfl

/-- A position is not above the greatest one. -/
theorem position_le {max : Nat} (hmax : max ≤ maxLength) (h : position v name max = .ok n) :
    n ≤ max := by
  obtain ⟨_, _, _, hle⟩ := (position_eq_ok_iff hmax).mp h
  exact hle

/-- What is not a position is refused with its name: as a number outside the range, or as something
else than a number. -/
theorem position_eq_error {max : Nat} {f : Fault} (h : position v name max = .error f) :
    (∃ expected, f = .outOfRange name expected v) ∨ f = .wrongType name "of type number" v := by
  cases v with
  | number x =>
    refine .inl ?_
    simp only [position, integer] at h
    split at h
    · cases h
      exact ⟨_, rfl⟩
    · split at h
      · cases h
        exact ⟨_, rfl⟩
      · nomatch h
  | _ =>
    cases h
    exact .inr rfl

/-- The argument gives a bound of a range: the default where it is missing, and else a whole number
from zero to the greatest one. -/
inductive Bound {ω : Type} (max default : Nat) : Value ω → Nat → Prop where
  | missing : Bound max default .undefined default
  | number {x : Binary64} {k : Nat} (hx : x.HasValue k) (hle : k ≤ max) :
    Bound max default (.number x) k

theorem bound_number_iff {ω : Type} {max default : Nat} {x : Binary64} :
    Bound max default (.number x : Value ω) n ↔ x.HasValue n ∧ n ≤ max := by
  constructor
  · intro h
    cases h with
    | number hx hle => exact ⟨hx, hle⟩
  · intro h
    exact .number h.1 h.2

/-- A bound does not depend on what the buffers show. -/
theorem bound_map_iff {ω ω' : Type} {max default : Nat} (f : ω → ω') {v : Value ω} :
    Bound max default (v.map f) n ↔ Bound max default v n := by
  constructor
  · intro h
    cases v with
    | undefined =>
      cases h
      exact .missing
    | number x =>
      cases h with
      | number hx hle => exact .number hx hle
    | _ => cases h
  · intro h
    cases h with
    | missing => exact .missing
    | number hx hle => exact .number hx hle

/-- The positions that may be missing are the bounds. -/
theorem positionOr_eq_ok_iff {max default : Nat} (hmax : max ≤ maxLength) :
    positionOr v name max default = .ok n ↔ Bound max default v n := by
  unfold positionOr
  split
  · rename_i hmissing
    cases v with
    | undefined =>
      constructor
      · intro h
        cases h
        exact .missing
      · intro h
        cases h
        rfl
    | _ => nomatch hmissing
  · rename_i hgiven
    rw [position_eq_ok_iff hmax]
    constructor
    · intro h
      obtain ⟨x, rfl, hx, hle⟩ := h
      exact .number hx hle
    · intro h
      cases h with
      | missing => exact absurd rfl hgiven
      | number hx hle => exact ⟨_, rfl, hx, hle⟩

theorem positionOr_eq_error {max default : Nat} {f : Fault}
    (h : positionOr v name max default = .error f) :
    (∃ expected, f = .outOfRange name expected v) ∨ f = .wrongType name "of type number" v := by
  unfold positionOr at h
  split at h
  · nomatch h
  · exact position_eq_error h

theorem Bound.le {max default : Nat} (hdefault : default ≤ max) (h : Bound max default v n) :
    n ≤ max := by
  cases h with
  | missing => exact hdefault
  | number hx hle => exact hle

theorem positionOr_le {max default : Nat} (hmax : max ≤ maxLength) (hdefault : default ≤ max)
    (h : positionOr v name max default = .ok n) : n ≤ max :=
  ((positionOr_eq_ok_iff hmax).mp h).le hdefault

/-- A bound is let pass also where the greatest one is rounded. It is then kept, unless both it and
what it is taken for are too great for a block. -/
theorem Bound.exists_positionOr {max default : Nat} (h : Bound max default v n) (name : String) :
    ∃ m, positionOr v name max default = .ok m ∧ (m = n ∨ maxLength < m ∧ maxLength < n) := by
  cases h with
  | missing => exact ⟨n, rfl, .inl rfl⟩
  | @number x _ hx hle =>
    have hlow : x.lt (.zero false) = false := by
      rw [← Bool.not_eq_true, hx.lt_iff (Binary64.hasValue_zero false)]
      omega
    refine ⟨(x.truncClamped minInt64 maxInt64).toNat, ?_, ?_⟩
    · simp only [positionOr, Value.isUndefined, position, integer, hx.isWhole, hlow,
        hx.ofNat_lt_eq_false hle]
      rfl
    · rw [hx.truncClamped]
      unfold minInt64 maxInt64 maxLength
      omega

/-! ## Places of fields -/

/-- The offset of a field that begins at byte `k`: a number of that value, and none for the first
byte. -/
inductive StartsAt {ω : Type} : Value ω → Nat → Prop where
  | missing : StartsAt .undefined 0
  | number {x : Binary64} {k : Nat} (hx : x.HasValue k) : StartsAt (.number x) k

/-- An offset does not depend on what the buffers show. -/
theorem startsAt_map_iff {ω ω' : Type} (f : ω → ω') {v : Value ω} :
    StartsAt (v.map f) n ↔ StartsAt v n := by
  constructor
  · intro h
    cases v with
    | undefined =>
      cases h
      exact .missing
    | number x =>
      cases h with
      | number hx => exact .number hx
    | _ => cases h
  · intro h
    cases h with
    | missing => exact .missing
    | number hx => exact .number hx

theorem fieldOffset_iff : (∃ x, fieldOffset v = .ok x ∧ x.HasValue n) ↔ StartsAt v n := by
  constructor
  · intro h
    obtain ⟨x, hoffset, hx⟩ := h
    cases v with
    | undefined =>
      cases hoffset
      have hzero : (n : Int) = 0 := hx.trunc.symm.trans (Binary64.hasValue_zero false).trunc
      obtain rfl : n = 0 := by omega
      exact .missing
    | number y =>
      cases hoffset
      exact .number hx
    | _ => cases hoffset
  · intro h
    cases h with
    | missing => exact ⟨_, rfl, Binary64.hasValue_zero false⟩
    | number hx => exact ⟨_, rfl, hx⟩

/-- The numbers that are let pass are the whole numbers from zero to the last place. -/
theorem isPlace_iff {x : Binary64} {last : Int} (hlast : IsSmall last) :
    (!x.isFloor || decide (last < 0) || x.lt (.zero false) || (Binary64.ofInt last).lt x) =
        false ↔
      ∃ k : Nat, x.HasValue k ∧ (k : Int) ≤ last := by
  have hbetween := @Binary64.between_iff x (.zero false) (.ofInt last) 0 last
    (Binary64.hasValue_zero false) (Binary64.hasValue_ofInt hlast)
  rw [Bool.or_assoc, Bool.or_eq_false_iff, Bool.or_eq_false_iff, Bool.not_eq_false',
    decide_eq_false_iff_not, Int.not_lt]
  constructor
  · intro h
    obtain ⟨⟨hfloor, -⟩, hrange⟩ := h
    obtain ⟨m, hx, hnonneg, hle⟩ := (hbetween hfloor).mp hrange
    rw [← Int.toNat_of_nonneg hnonneg] at hx hle
    exact ⟨m.toNat, hx, hle⟩
  · intro h
    obtain ⟨k, hx, hle⟩ := h
    exact ⟨⟨hx.isFloor, by omega⟩, (hbetween hx.isFloor).mpr ⟨k, hx, by omega, hle⟩⟩

/-- The fields that have a place are those with room for them between their offset and the end. -/
theorem place_eq_ok_iff (hlength : length ≤ maxLength) (hwidth : width ≤ maxLength) :
    place v length width = .ok n ↔ StartsAt v n ∧ n + width ≤ length := by
  have hmax : maxLength = 2147483647 := rfl
  have hsmall : IsSmall (length - width) := by unfold IsSmall; omega
  -- The last place may be below zero, but it does not wrap.
  have hwrapped : wrapped (length - width) = length - width :=
    wrapped_eq_self (by unfold minInt64; omega) (by unfold maxInt64; omega)
  simp only [place, bind_eq_ok, hwrapped, ← fieldOffset_iff]
  constructor
  · intro h
    obtain ⟨x, hoffset, h⟩ := h
    split at h
    · nomatch h
    · rename_i hplace
      rw [Bool.not_eq_true] at hplace
      obtain ⟨k, hx, hle⟩ := (isPlace_iff hsmall).mp hplace
      rw [hx.trunc, Int.toNat_natCast] at h
      cases h
      exact ⟨⟨x, hoffset, hx⟩, by omega⟩
  · intro h
    obtain ⟨⟨x, hoffset, hx⟩, hroom⟩ := h
    have hplace := (isPlace_iff hsmall).mpr ⟨n, hx, by omega⟩
    refine ⟨x, hoffset, ?_⟩
    rw [hplace, hx.trunc, Int.toNat_natCast]
    rfl

/-- There is room for a field at its place. -/
theorem place_add_le (hlength : length ≤ maxLength) (hwidth : width ≤ 8)
    (h : place v length width = .ok n) : n + width ≤ length := by
  have hmax : maxLength = 2147483647 := rfl
  exact ((place_eq_ok_iff hlength (by omega)).mp h).2

/-- A position is the offset of the field that begins there. -/
theorem startsAt_ofNat {ω : Type} (h : n ≤ maxLength) :
    StartsAt (.number (.ofNat n) : Value ω) n :=
  .number (Binary64.hasValue_ofInt (small_of_le_maxLength h))

end Argument

namespace Content

/-! ## Ranges of texts -/

variable {count : Nat}

theorem isNaN_textStart {x low : Binary64} (h : textStart (.ofNat count) x = some low) :
    low.isNaN = false := by
  unfold textStart at h
  split at h
  · cases h
    rfl
  · rename_i hnumber
    split at h
    · nomatch h
    · cases h
      rw [Binary64.isNaN_truncated]
      simp only [Bool.or_eq_true, not_or, Bool.not_eq_true] at hnumber
      exact hnumber.1

/-- A text stops at a number that is not above the number of bytes. -/
theorem textStop_le (hcount : count ≤ maxLength) (x : Binary64) :
    (textStop (.ofNat count) x).isNaN = false ∧
      (textStop (.ofNat count) x).scaled ≤ count * Binary64.one := by
  have hsmall := small_of_le_maxLength hcount
  unfold textStop
  split
  · exact ⟨Binary64.isNaN_ofNat count, Int.le_of_eq (scaled_ofNat hsmall)⟩
  · rename_i hle
    split
    · refine ⟨rfl, ?_⟩
      rw [Binary64.scaled_zero]
      exact Int.mul_nonneg (Int.natCast_nonneg count) (Int.le_of_lt Binary64.one_pos)
    · rename_i hnumber
      rw [Bool.not_eq_true] at hle hnumber
      have hscaled := scaled_le_of_lt_eq_false (Binary64.isNaN_ofNat count) hnumber hle
      rw [scaled_ofNat hsmall] at hscaled
      exact ⟨by rw [Binary64.isNaN_truncated, hnumber],
        Binary64.scaled_truncated_le hsmall hscaled⟩

theorem textStopOr_le {v : Operand} {high : Binary64} (hcount : count ≤ maxLength)
    (h : textStopOr (.ofNat count) v = .ok high) :
    high.isNaN = false ∧ high.scaled ≤ count * Binary64.one := by
  unfold textStopOr at h
  split at h
  · cases h
    exact ⟨Binary64.isNaN_ofNat count,
      Int.le_of_eq (scaled_ofNat (small_of_le_maxLength hcount))⟩
  · obtain ⟨x, _, rfl⟩ := map_eq_ok.mp h
    exact textStop_le hcount x

/-- A text that begins where it may and stops after it begins is a range of the bytes. -/
theorem text_range {x low high : Binary64} {v : Operand} (hcount : count ≤ maxLength)
    (hlow : textStart (.ofNat count) x = some low) (hhigh : textStopOr (.ofNat count) v = .ok high)
    (hlt : high.le low = false) :
    low.toNatural ≤ high.toNatural ∧ high.toNatural ≤ count := by
  have hlowNumber : low.isNaN = false := isNaN_textStart hlow
  obtain ⟨hhighNumber, hhighLe⟩ := textStopOr_le hcount hhigh
  constructor
  · have hscaled := Binary64.scaled_lt_of_le_eq_false hhighNumber hlowNumber hlt
    exact Binary64.toNatural_le_toNatural hlowNumber hhighNumber (Int.le_of_lt hscaled)
  · exact Binary64.toNatural_le hhighLe

end Content

end Octets
