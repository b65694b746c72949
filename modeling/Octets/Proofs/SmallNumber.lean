import Octets.Argument
import Octets.Proofs.Nearest

/-!
# Small integers as numbers

An integer of at most 53 bits is a number: rounding keeps it. The length of a block is such an
integer. A number that is not above it is not above it either when it has been rounded toward zero
and when it is taken back to an integer, which makes it a position in the block. A number that is
finite and has an integer as its value (`Binary64.HasValue`) is compared and added as the integer
is.

* `Binary64.scaled_ofInt` — small integers are exact;
* `Binary64.between_iff` — the numbers without a fraction between two integers;
* `Binary64.hasValue_truncated` — rounding toward zero gives an integer, also where it is not small;
* `Binary64.scaled_truncated_le`, `Binary64.toNatural_le` — rounding toward zero does not pass a
  small integer.
-/

namespace Octets

/-! ## Rounding -/

namespace Format

/-- The product of a positive number below `2 ^ 53` and a power of two that brings it to 53 bits. -/
theorem filled_significand {m : Nat} (hne : m ≠ 0) (h : m < 2 ^ 53) :
    m.log2 ≤ 52 ∧ 2 ^ 52 ≤ m * 2 ^ (52 - m.log2) ∧ m * 2 ^ (52 - m.log2) < 2 ^ 53 := by
  have hlog : m.log2 ≤ 52 := by
    have := (Nat.log2_lt hne).mpr h
    omega
  have hlo := Nat.mul_le_mul_right (2 ^ (52 - m.log2)) (Nat.log2_self_le hne)
  have hhi := Nat.mul_lt_mul_of_pos_right (Nat.lt_log2_self (n := m))
    (Nat.two_pow_pos (52 - m.log2))
  rw [← Nat.pow_add, show m.log2 + (52 - m.log2) = 52 by omega] at hlo
  rw [← Nat.pow_add, show m.log2 + 1 + (52 - m.log2) = 53 by omega] at hhi
  exact ⟨hlog, hlo, hhi⟩

/-- A small integer times a power of two is a value of the format, unless it is beyond the last
one. -/
theorem exists_magnitude_eq {m u : Nat} (hlo : 52 ≤ u) (hhi : u ≤ 2045) (h : m < 2 ^ 53) :
    ∃ rank < binary64.infinityRank, binary64.magnitude rank = m * 2 ^ u := by
  have hbinade : binary64.binade = 2 ^ 52 := rfl
  have hinfinity : binary64.infinityRank = 2047 * 2 ^ 52 := by decide
  by_cases hzero : m = 0
  · exact ⟨0, by omega, by rw [magnitude_zero, hzero, Nat.zero_mul]⟩
  · obtain ⟨hlog, hleast, hmost⟩ := filled_significand hzero h
    refine ⟨(m.log2 + (u - 52)) * binary64.binade + m * 2 ^ (52 - m.log2),
      by rw [hbinade]; omega, ?_⟩
    rw [magnitude_add (by omega) (.inr (by omega)), Nat.mul_assoc, ← Nat.pow_add]
    congr 2
    omega

/-- Such a value is rounded to itself. -/
theorem nearestRank_small {m u : Nat} (hlo : 52 ≤ u) (hhi : u ≤ 2045) (h : m < 2 ^ 53) :
    binary64.nearestRank (m * 2 ^ u) 1 < binary64.infinityRank ∧
      binary64.magnitude (binary64.nearestRank (m * 2 ^ u) 1) = m * 2 ^ u := by
  obtain ⟨rank, hlt, hvalue⟩ := exists_magnitude_eq hlo hhi h
  have hrank := nearestRank_magnitude (f := binary64) (by decide) Nat.one_pos (Nat.le_of_lt hlt)
  rw [Nat.mul_one, hvalue] at hrank
  rw [hrank]
  exact ⟨hlt, hvalue⟩

/-- A value that does not fit the significant bits is a multiple of the power of two that they are
short of. -/
theorem dvd_magnitude {f : Format} {rank u : Nat} (h : 2 * f.binade * 2 ^ u ≤ f.magnitude rank) :
    2 ^ u ∣ f.magnitude rank := by
  obtain ⟨exponent, significand, rfl, hlt, hnormal⟩ := f.exists_exponent_significand rank
  rw [magnitude_add (Nat.le_of_lt hlt) hnormal] at h ⊢
  have hle : u ≤ exponent := by
    by_contra hgt
    have hpow : 2 ^ exponent ≤ 2 ^ u := Nat.pow_le_pow_right (by decide) (by omega)
    have hsmall := Nat.mul_lt_mul_of_lt_of_le hlt hpow (Nat.two_pow_pos u)
    omega
  exact Nat.dvd_trans (Nat.pow_dvd_pow 2 hle) (Nat.dvd_mul_left _ _)

end Format

namespace Binary64

/-! ## Small integers -/

/-- An integer of at most 53 bits. -/
def IsSmall (n : Int) : Prop := n.natAbs < 2 ^ 53

instance (n : Int) : Decidable (IsSmall n) := inferInstanceAs (Decidable (_ < _))

theorem one_pos : (0 : Int) < (one : Nat) := by
  exact Int.natCast_pos.mpr (Nat.two_pow_pos unitExponent)

@[simp] theorem isNaN_ofInt (n : Int) : (ofInt n).isNaN = false := by
  have hle : (ofInt n).rank ≤ infinityRank := Format.nearestRank_le Format.binary64 _ 1
  exact decide_eq_false (by omega)

@[simp] theorem isNaN_ofNat (n : Nat) : (ofNat n).isNaN = false := isNaN_ofInt n

theorem rank_ofInt (n : Int) :
    (ofInt n).rank = Format.binary64.nearestRank (n.natAbs * one) 1 := by
  unfold ofInt ofScaled ofRatio
  rw [Int.natAbs_mul, Int.natAbs_natCast]

/-- A small integer is finite, and is as far from zero as it is. -/
theorem magnitude_ofInt {n : Int} (h : IsSmall n) :
    (ofInt n).isFinite = true ∧ (ofInt n).magnitude = n.natAbs * one := by
  obtain ⟨hfinite, hvalue⟩ :=
    Format.nearestRank_small (u := unitExponent) (by decide) (by decide) h
  rw [← infinityRank_eq] at hfinite
  unfold magnitude isFinite
  rw [rank_ofInt]
  exact ⟨decide_eq_true hfinite, hvalue⟩

/-- An integer that is as far from zero when it is rounded is not changed by rounding. -/
theorem scaled_ofInt_of_magnitude {n : Int} (h : (ofInt n).magnitude = n.natAbs * one) :
    (ofInt n).scaled = n * one := by
  have hone := one_pos
  unfold scaled
  rw [h]
  have hsign : (ofInt n).negative = decide (n * (one : Int) < 0) := rfl
  rw [hsign]
  by_cases hneg : n < 0
  · have hproduct : n * (one : Int) < 0 := Int.mul_neg_of_neg_of_pos hneg hone
    rw [if_pos (decide_eq_true hproduct), Int.natCast_mul, Int.ofNat_natAbs_of_nonpos (by omega),
      Int.neg_mul, Int.neg_neg]
  · have hproduct : ¬n * (one : Int) < 0 := by
      have := Int.mul_nonneg (Int.not_lt.mp hneg) (Int.le_of_lt hone)
      omega
    rw [if_neg (by rwa [decide_eq_true_eq]), Int.natCast_mul, Int.natAbs_of_nonneg (by omega)]

/-- A small integer is a number. -/
theorem scaled_ofInt {n : Int} (h : IsSmall n) : (ofInt n).scaled = n * one :=
  scaled_ofInt_of_magnitude (magnitude_ofInt h).2

theorem scaled_ofNat {n : Nat} (h : IsSmall n) : (ofNat n).scaled = n * one := scaled_ofInt h

/-! ## Values -/

/-- The number is finite, and its value is the integer. -/
def HasValue (x : Binary64) (n : Int) : Prop := x.isFinite = true ∧ x.scaled = n * one

theorem hasValue_ofInt {n : Int} (h : IsSmall n) : (ofInt n).HasValue n :=
  ⟨(magnitude_ofInt h).1, scaled_ofInt h⟩

/-- An integer of at most 53 significant bits is a number, unless it is beyond the last one. -/
theorem hasValue_ofInt_of_significand {n : Int} {m k : Nat} (hn : n.natAbs = m * 2 ^ k)
    (hm : m < 2 ^ 53) (hk : k ≤ 971) : (ofInt n).HasValue n := by
  have hscaled : n.natAbs * one = m * 2 ^ (k + unitExponent) := by
    rw [hn, one, Nat.mul_assoc, ← Nat.pow_add]
  have hexponent : unitExponent = 1074 := rfl
  obtain ⟨hfinite, hvalue⟩ :=
    Format.nearestRank_small (u := k + unitExponent) (by omega) (by omega) hm
  rw [← hscaled, ← rank_ofInt] at hfinite hvalue
  rw [← infinityRank_eq] at hfinite
  exact ⟨decide_eq_true hfinite, scaled_ofInt_of_magnitude hvalue⟩

theorem hasValue_ofInt_of_le {n : Int} (h : n.natAbs ≤ 2 ^ 53) : (ofInt n).HasValue n := by
  by_cases hsmall : IsSmall n
  · exact hasValue_ofInt hsmall
  · exact hasValue_ofInt_of_significand (m := 1) (k := 53)
      (by unfold IsSmall at hsmall; omega) (by decide) (by decide)

theorem natAbs_scaled (x : Binary64) : x.scaled.natAbs = x.magnitude := by
  unfold scaled
  split
  · rw [Int.natAbs_neg, Int.natAbs_natCast]
  · rw [Int.natAbs_natCast]

namespace HasValue

variable {x : Binary64} {n : Int}

theorem trunc (h : x.HasValue n) : x.trunc = n := by
  rw [Binary64.trunc, h.2, Int.mul_tdiv_cancel n (Int.ne_of_gt one_pos)]

theorem magnitude_eq (h : x.HasValue n) : x.magnitude = n.natAbs * one := by
  rw [← natAbs_scaled, h.2, Int.natAbs_mul, Int.natAbs_natCast]

theorem isWhole (h : x.HasValue n) : x.isWhole = true := by
  simp only [Binary64.isWhole, h.1, h.magnitude_eq, Nat.mul_mod_left, Bool.true_and, decide_true]

/-- An integer that is the value of a number is not changed by rounding, whether it is small or
not. -/
theorem ofInt (h : x.HasValue n) : (Binary64.ofInt n).HasValue n := by
  have hrank : (Binary64.ofInt n).rank = x.rank := by
    have hlt : x.rank < Format.binary64.infinityRank := infinityRank_eq ▸ of_decide_eq_true h.1
    have hnearest := Format.nearestRank_magnitude (f := .binary64) (by decide) Nat.one_pos
      (Nat.le_of_lt hlt)
    rw [Nat.mul_one] at hnearest
    rw [rank_ofInt, ← h.magnitude_eq]
    exact hnearest
  have hmagnitude : (Binary64.ofInt n).magnitude = n.natAbs * one := by
    rw [Binary64.magnitude, hrank]
    exact h.magnitude_eq
  refine ⟨?_, scaled_ofInt_of_magnitude hmagnitude⟩
  rw [isFinite, hrank]
  exact h.1

/-- A number without a fraction has the value that it is rounded to. -/
theorem of_isWhole (h : x.isWhole = true) : x.HasValue x.trunc := by
  simp only [Binary64.isWhole, Bool.and_eq_true, decide_eq_true_eq] at h
  have hdvd : (one : Int) ∣ x.scaled := by
    rw [← Int.natAbs_dvd_natAbs, natAbs_scaled]
    exact Nat.dvd_of_mod_eq_zero h.2
  exact ⟨h.1, (Int.tdiv_mul_cancel hdvd).symm⟩

end HasValue

/-! ## Signs -/

/-- Rounding does not change the sign. -/
theorem scaled_ofInt_nonpos {n : Int} (h : n ≤ 0) : (ofInt n).scaled ≤ 0 := by
  by_cases hzero : n = 0
  · subst hzero
    have hscaled : (ofInt 0).scaled = 0 * one := scaled_ofInt (by decide)
    rw [Int.zero_mul] at hscaled
    exact Int.le_of_eq hscaled
  · have hproduct : n * (one : Int) < 0 := Int.mul_neg_of_neg_of_pos (by omega) one_pos
    have hsign : (ofInt n).negative = true := decide_eq_true hproduct
    unfold scaled
    rw [if_pos hsign]
    omega

@[simp] theorem scaled_zero (negative : Bool) : (zero negative).scaled = 0 := by
  cases negative <;> rfl

/-! ## Comparisons -/

variable {x y : Binary64}

/-- Of two numbers, the first of which is not below the second. -/
theorem scaled_le_of_lt_eq_false (hx : x.isNaN = false) (hy : y.isNaN = false)
    (h : x.lt y = false) : y.scaled ≤ x.scaled := by
  simpa [lt, hx, hy] using h

theorem scaled_lt_of_le_eq_false (hx : x.isNaN = false) (hy : y.isNaN = false)
    (h : x.le y = false) : y.scaled < x.scaled := by
  simpa [le, hx, hy] using h

theorem isNaN_of_isFinite (h : x.isFinite = true) : x.isNaN = false := by
  have hlt : x.rank < infinityRank := of_decide_eq_true h
  exact decide_eq_false (by omega)

theorem isInfinite_of_isFinite (h : x.isFinite = true) : x.isInfinite = false := by
  have hlt : x.rank < infinityRank := of_decide_eq_true h
  exact decide_eq_false (by omega)

/-- What is neither finite nor not a number is infinite. -/
theorem eq_infinity (hnumber : x.isNaN = false) (h : ¬x.isFinite = true) :
    x = infinity x.negative := by
  have hle : ¬infinityRank < x.rank := of_decide_eq_false hnumber
  have hge : ¬x.rank < infinityRank := fun hlt => h (decide_eq_true hlt)
  have hrank : x.rank = infinityRank := by omega
  obtain ⟨negative, rank, hlt⟩ := x
  obtain rfl : rank = infinityRank := hrank
  rfl

theorem isZero_of_magnitude_pos (h : 0 < x.magnitude) : x.isZero = false := by
  refine decide_eq_false fun hrank => ?_
  rw [magnitude, hrank, Format.magnitude_zero] at h
  exact Nat.lt_irrefl 0 h

theorem hasValue_zero (negative : Bool) : (zero negative).HasValue 0 :=
  ⟨rfl, by rw [scaled_zero, Int.zero_mul]⟩

/-- Numbers of integer values are compared as the integers are. -/
theorem HasValue.lt_iff {m n : Int} (hx : x.HasValue m) (hy : y.HasValue n) :
    x.lt y = true ↔ m < n := by
  simp only [lt, isNaN_of_isFinite hx.1, isNaN_of_isFinite hy.1, hx.2, hy.2, Bool.not_false,
    Bool.true_and, decide_eq_true_eq]
  exact Int.mul_lt_mul_right one_pos

/-- A count that is rounded, however large it is, is not below a number that does not exceed it. -/
theorem HasValue.ofNat_lt_eq_false {k n : Nat} (hx : x.HasValue k) (h : k ≤ n) :
    (ofNat n).lt x = false := by
  have hfinite : x.rank < Format.binary64.infinityRank := infinityRank_eq ▸ of_decide_eq_true hx.1
  have hvalue : x.magnitude = k * one := hx.magnitude_eq
  have hrank : x.rank ≤ (ofNat n).rank := by
    rw [ofNat, rank_ofInt]
    refine Format.le_nearestRank (by decide) Nat.one_pos (Nat.le_of_lt hfinite) ?_
    rw [Nat.mul_one, Int.natAbs_natCast, ← magnitude, hvalue]
    exact Nat.mul_le_mul_right one h
  have hmagnitude : x.magnitude ≤ (ofNat n).magnitude :=
    Format.binary64.strictMono_magnitude.monotone hrank
  have hsign : (ofNat n).negative = false := by
    have hnonneg := Int.mul_nonneg (Int.natCast_nonneg n) (Int.le_of_lt one_pos)
    exact decide_eq_false (Int.not_lt.mpr hnonneg)
  have hle : x.scaled ≤ (ofNat n).scaled := by
    rw [hx.2, scaled, hsign, if_neg Bool.false_ne_true]
    rw [hvalue] at hmagnitude
    exact_mod_cast hmagnitude
  rw [lt, decide_eq_false (Int.not_lt.mpr hle), Bool.and_false]

theorem le_eq_not_lt (hx : x.isNaN = false) (hy : y.isNaN = false) : x.le y = !y.lt x := by
  simp only [le, lt, hx, hy, Bool.not_false, Bool.true_and, ← decide_not, Int.not_lt]

/-- What is not farther from zero than a finite number is finite. -/
theorem isFinite_of_magnitude_le (hy : y.isFinite = true) (h : x.magnitude ≤ y.magnitude) :
    x.isFinite = true := by
  have hrank := Format.binary64.strictMono_magnitude.le_iff_le.mp h
  exact decide_eq_true (Nat.lt_of_le_of_lt hrank (of_decide_eq_true hy))

theorem isNaN_of_isFloor (h : x.isFloor = true) : x.isNaN = false := by
  simp only [isFloor, isWhole, Bool.or_eq_true, Bool.and_eq_true] at h
  rcases h with ⟨hfinite, _⟩ | hinfinite
  · exact isNaN_of_isFinite hfinite
  · have heq : x.rank = infinityRank := of_decide_eq_true hinfinite
    exact decide_eq_false (by omega)

theorem HasValue.isFloor {n : Int} (hx : x.HasValue n) : x.isFloor = true := by
  rw [Binary64.isFloor, hx.isWhole, Bool.true_or]

/-- A finite number that rounding toward negative infinity leaves as it is has an integer value. -/
theorem HasValue.of_isFloor (hfloor : x.isFloor = true) (hfinite : x.isFinite = true) :
    x.HasValue x.trunc := by
  rw [Binary64.isFloor, isInfinite_of_isFinite hfinite, Bool.or_false] at hfloor
  exact of_isWhole hfloor

/-- Between two numbers of integer values there are, of the numbers without a fraction, those of the
integers between the two. An infinity has no fraction, and is not between them. -/
theorem between_iff {low high : Binary64} {a b : Int} (hlow : low.HasValue a)
    (hhigh : high.HasValue b) (hfloor : x.isFloor = true) :
    (x.lt low || high.lt x) = false ↔ ∃ m, x.HasValue m ∧ a ≤ m ∧ m ≤ b := by
  rw [Bool.or_eq_false_iff]
  constructor
  · intro h
    obtain ⟨hleast, hmost⟩ := h
    have hnumber := isNaN_of_isFloor hfloor
    have hge := scaled_le_of_lt_eq_false hnumber (isNaN_of_isFinite hlow.1) hleast
    have hle := scaled_le_of_lt_eq_false (isNaN_of_isFinite hhigh.1) hnumber hmost
    have hmagnitude : x.magnitude ≤ low.magnitude ∨ x.magnitude ≤ high.magnitude := by
      rw [← natAbs_scaled, ← natAbs_scaled, ← natAbs_scaled]
      omega
    have hfinite := hmagnitude.elim (isFinite_of_magnitude_le hlow.1)
      (isFinite_of_magnitude_le hhigh.1)
    have hx := HasValue.of_isFloor hfloor hfinite
    rw [← Bool.not_eq_true, hx.lt_iff hlow, Int.not_lt] at hleast
    rw [← Bool.not_eq_true, hhigh.lt_iff hx, Int.not_lt] at hmost
    exact ⟨_, hx, hleast, hmost⟩
  · intro h
    obtain ⟨m, hx, hleast, hmost⟩ := h
    rw [← Bool.not_eq_true, ← Bool.not_eq_true, hx.lt_iff hlow, hhigh.lt_iff hx]
    omega

/-! ## Rounding toward zero -/

@[simp] theorem isNaN_truncated (x : Binary64) : x.truncated.isNaN = x.isNaN := by
  unfold truncated
  split
  · rename_i hfinite
    rw [isNaN_ofInt, isNaN_of_isFinite hfinite]
  · rfl

theorem trunc_le {n : Int} (h : x.scaled ≤ n * one) : x.trunc ≤ n := by
  have hle := Int.tdiv_le_tdiv one_pos h
  rwa [Int.mul_tdiv_cancel n (Int.ne_of_gt one_pos)] at hle

/-- A finite number with an integer part that is not small has no fraction. -/
theorem isWhole_of_not_isSmall (hfinite : x.isFinite = true) (h : ¬IsSmall x.trunc) :
    x.isWhole = true := by
  have hlarge : 2 ^ 53 * one ≤ x.magnitude := by
    have htrunc : x.trunc.natAbs = x.magnitude / one := by
      rw [trunc, Int.natAbs_tdiv, natAbs_scaled]
      rfl
    unfold IsSmall at h
    rw [htrunc, Nat.not_lt] at h
    exact (Nat.le_div_iff_mul_le (Int.natCast_pos.mp one_pos)).mp h
  have hbinade : 2 * Format.binary64.binade = 2 ^ 53 := rfl
  have hone : one = 2 ^ unitExponent := rfl
  rw [← hbinade, hone] at hlarge
  have hmod := Nat.mod_eq_zero_of_dvd (Format.dvd_magnitude hlarge)
  rw [← hone] at hmod
  rw [isWhole, hfinite, magnitude, hmod]
  rfl

/-- A finite number rounded toward zero has the integer part of the number as its value. -/
theorem hasValue_truncated (h : x.isFinite = true) : x.truncated.HasValue x.trunc := by
  rw [truncated, if_pos h]
  by_cases hsmall : IsSmall x.trunc
  · exact hasValue_ofInt hsmall
  · exact (HasValue.of_isWhole (isWhole_of_not_isSmall h hsmall)).ofInt

theorem isFinite_of_truncated (h : x.truncated.isFinite = true) : x.isFinite = true := by
  by_contra hinfinite
  rw [truncated, if_neg hinfinite] at h
  exact hinfinite h

theorem isFloor_truncated (h : x.isNaN = false) : x.truncated.isFloor = true := by
  by_cases hfinite : x.isFinite = true
  · exact (hasValue_truncated hfinite).isFloor
  · rw [truncated, if_neg hfinite, eq_infinity h hfinite, isFloor, Bool.or_eq_true]
    exact .inr rfl

/-- An integer is moved to the nearer end of a range. -/
theorem HasValue.truncClamped {lo hi n : Int} (hx : x.HasValue n) :
    x.truncClamped lo hi = max lo (min hi n) := by
  rw [Binary64.truncClamped, if_neg (by simp [isNaN_of_isFinite hx.1]), hx.trunc]

theorem HasValue.truncClamped_eq {lo hi n : Int} (hx : x.HasValue n) (hlo : lo ≤ n)
    (hhi : n ≤ hi) : x.truncClamped lo hi = n := by
  rw [hx.truncClamped]
  omega

/-- The byte of an integer is what it is modulo `256`. -/
theorem HasValue.toByte {n : Int} (hx : x.HasValue n) :
    x.toByte = UInt8.ofNat (n % 256).toNat := by
  rw [Binary64.toByte, if_pos hx.1, hx.trunc]

/-- An integer of 64 bits without a sign is taken back to itself. -/
theorem HasValue.toNatural {n : Nat} (hx : x.HasValue n) (h : n ≤ 0xFFFFFFFFFFFFFFFF) :
    x.toNatural = n := by
  rw [Binary64.toNatural, hx.truncClamped_eq (by omega) (by omega), Int.toNat_natCast]

theorem scaled_truncated_le {n : Nat} (hn : IsSmall n) (h : x.scaled ≤ n * one) :
    x.truncated.scaled ≤ n * one := by
  have hone := one_pos
  unfold truncated
  split
  · have hle := trunc_le h
    -- An integer below zero need not be small: it may be rounded, but stays below zero.
    by_cases hneg : x.trunc ≤ 0
    · have hnonneg : 0 ≤ (n : Int) * one := Int.mul_nonneg (by omega) (Int.le_of_lt hone)
      exact Int.le_trans (scaled_ofInt_nonpos hneg) hnonneg
    · unfold IsSmall at hn
      rw [scaled_ofInt (by unfold IsSmall; omega)]
      exact Int.mul_le_mul_of_nonneg_right hle (Int.le_of_lt hone)
  · exact h

theorem toNatural_le {n : Nat} (h : x.scaled ≤ n * one) : x.toNatural ≤ n := by
  have hle := trunc_le h
  unfold toNatural truncClamped
  split <;> omega

/-- What is not above zero is taken to zero. -/
theorem toNatural_eq_zero (h : x.scaled ≤ 0) : x.toNatural = 0 := by
  refine Nat.le_zero.mp (toNatural_le (n := 0) ?_)
  rwa [Int.natCast_zero, Int.zero_mul]

theorem toNatural_le_toNatural (hx : x.isNaN = false) (hy : y.isNaN = false)
    (h : x.scaled ≤ y.scaled) : x.toNatural ≤ y.toNatural := by
  have hle : x.trunc ≤ y.trunc := Int.tdiv_le_tdiv one_pos h
  simp only [toNatural, truncClamped, hx, hy, Bool.false_eq_true, if_false]
  omega

/-! ## Sums -/

/-- The number of the opposite sign has the opposite value. -/
theorem HasValue.neg {n : Int} (h : x.HasValue n) : x.neg.HasValue (-n) := by
  have hscaled : x.neg.scaled = -x.scaled := by
    cases hsign : x.negative <;> simp [scaled, Binary64.neg, magnitude, hsign]
  exact ⟨h.1, by rw [hscaled, h.2, Int.neg_mul]⟩

/-- Numbers of integer values are added as the integers are, and the sum is rounded. -/
theorem HasValue.add {m n : Int} (hx : x.HasValue m) (hy : y.HasValue n) :
    x.add y =
      if m + n = 0 then zero (x.negative && y.negative) else Binary64.ofInt (m + n) := by
  have hsum : x.scaled + y.scaled = (m + n) * one := by rw [hx.2, hy.2, Int.add_mul]
  have hzero : (m + n) * (one : Int) = 0 ↔ m + n = 0 :=
    ⟨fun h => (Int.mul_eq_zero.mp h).resolve_right (Int.ne_of_gt one_pos),
      fun h => by rw [h, Int.zero_mul]⟩
  simp only [Binary64.add, isNaN_of_isFinite hx.1, isNaN_of_isFinite hy.1,
    isInfinite_of_isFinite hx.1, isInfinite_of_isFinite hy.1, Bool.or_self, Bool.false_eq_true,
    if_false, hsum, hzero]
  rfl

end Binary64

end Octets
