import Octets.Number.Decimal
import Octets.Proofs.Scaling
import Octets.Proofs.Single

/-!
# Decimals that read back

A decimal stands for its value: digits may be moved between the coefficient and the exponent, as
long as there are only zeros to be moved, and the number that is nearest to it stays the same
(`Binary64.ofDecimal_shift`). The exact decimal of a number is within the range that is looked at,
and reads back as the number (`Binary64.ofDecimal_expansion`). So the search for the shortest one
ends with a decimal that reads back (`Binary64.ofDecimal_shortest`).

The search tries shorter decimals first. A whole number is found at the latest where all digits
before the point are there, so that its shortest decimal has none behind it
(`Binary64.exponent_shortest`).
-/

namespace Octets

/-! ## Digits of products with a power of ten -/

theorem decimal_mul_pow {n : Nat} (hn : 0 < n) (k : Nat) :
    Text.decimal (n * 10 ^ k) = Text.decimal n ++ List.replicate k '0' := by
  induction k with
  | zero => rw [Nat.pow_zero, Nat.mul_one, List.replicate_zero, List.append_nil]
  | succ k ih =>
    have hstep := Nat.toDigits_append_toDigits (b := 10) (by decide)
      (Nat.mul_pos hn (Nat.pow_pos (n := k) (show 0 < 10 by decide))) (show 0 < 10 by decide)
    rw [Text.decimal, Nat.pow_succ', Nat.mul_left_comm, ← Nat.add_zero (10 * _), ← hstep,
      ← Text.decimal, ih, List.append_assoc, List.replicate_succ', Nat.toDigits_zero]

namespace Decimal

theorem length_le_iff {d : Decimal} {k : Nat} (hk : 0 < k) :
    d.length ≤ k ↔ d.coefficient < 10 ^ k :=
  Nat.length_toDigits_le_iff (by decide) hk

/-- Zeros in the coefficient for what the exponent is made less by. -/
def shift (d : Decimal) (k : Nat) : Decimal := ⟨d.coefficient * 10 ^ k, d.exponent - k⟩

theorem coefficient_shift_pos {d : Decimal} (h : 0 < d.coefficient) (k : Nat) :
    0 < (d.shift k).coefficient := Nat.mul_pos h (Nat.pow_pos (by decide))

/-- The decimal point stays where it is. -/
theorem point_shift {d : Decimal} (h : 0 < d.coefficient) (k : Nat) :
    (d.shift k).point = d.point := by
  have hlength : (d.shift k).length = d.length + k := by
    rw [length, shift, decimal_mul_pow h, List.length_append, List.length_replicate, length]
  have hexponent : (d.shift k).exponent = d.exponent - k := rfl
  rw [point, hlength, point, hexponent]
  omega

end Decimal

namespace Binary64

/-! ## Decimals of the same value -/

/-- A quotient that is written with other terms is rounded to the same number. -/
theorem ofRatio_mul_right {k : Nat} (hk : 0 < k) (negative : Bool) (num den : Nat) :
    ofRatio negative (num * k) (den * k) = ofRatio negative num den :=
  eq_of_rank rfl (Format.nearestRank_mul_right hk)

/-- The nearest number to a decimal that is neither zero nor out of range. -/
theorem ofDecimal_eq {negative : Bool} {d : Decimal} (hpos : 0 < d.coefficient)
    (hhigh : d.point ≤ 400) (hlow : -400 ≤ d.point) (k : Nat) (hk : 0 ≤ d.exponent + k) :
    ofDecimal negative d =
      ofRatio negative (d.coefficient * 10 ^ (d.exponent + k).toNat * one) (10 ^ k) := by
  rw [ofDecimal, if_neg (by omega), if_neg (by omega), if_neg (by omega)]
  split
  · rename_i hexponent
    have hscale := ofRatio_mul_right (Nat.pow_pos (n := k) (show 0 < 10 by decide)) negative
      (d.coefficient * 10 ^ d.exponent.toNat * one) 1
    rw [Int.toNat_add hexponent (Int.natCast_nonneg k), Int.toNat_natCast, Nat.pow_add,
      ← Nat.mul_assoc, Nat.mul_right_comm _ (10 ^ k) one, ← hscale, Nat.one_mul]
  · rename_i hexponent
    obtain ⟨j, hj⟩ : ∃ j : Nat, k = (-d.exponent).toNat + j :=
      ⟨k - (-d.exponent).toNat, by omega⟩
    rw [show (d.exponent + k).toNat = j by omega, hj, Nat.pow_add, Nat.mul_right_comm,
      ofRatio_mul_right (Nat.pow_pos (by decide))]

/-- The number that is nearest to a decimal depends on its value alone. -/
theorem ofDecimal_shift (negative : Bool) (d : Decimal) (k : Nat) :
    ofDecimal negative (d.shift k) = ofDecimal negative d := by
  rcases Nat.eq_zero_or_pos d.coefficient with hzero | hpos
  · have hshift : (d.shift k).coefficient = 0 := by rw [Decimal.shift, hzero, Nat.zero_mul]
    rw [ofDecimal, if_pos hshift, ofDecimal, if_pos hzero]
  · have hshift := Decimal.coefficient_shift_pos hpos k
    have hpoint := Decimal.point_shift hpos k
    by_cases hhigh : 400 < d.point
    · rw [ofDecimal, if_neg (Nat.ne_of_gt hshift), if_pos (hpoint ▸ hhigh), ofDecimal,
        if_neg (Nat.ne_of_gt hpos), if_pos hhigh]
    · by_cases hlow : d.point < -400
      · rw [ofDecimal, if_neg (Nat.ne_of_gt hshift), if_neg (hpoint ▸ hhigh),
          if_pos (hpoint ▸ hlow), ofDecimal, if_neg (Nat.ne_of_gt hpos), if_neg hhigh, if_pos hlow]
      · have hexponent : (d.shift k).exponent = d.exponent - k := rfl
        have hcoefficient : (d.shift k).coefficient = d.coefficient * 10 ^ k := rfl
        -- Both are brought to one denominator.
        obtain ⟨j, hj⟩ : ∃ j : Nat, 0 ≤ d.exponent + j := ⟨(-d.exponent).toNat, by omega⟩
        have hsplit : (d.exponent + (j + k : Nat)).toNat = k + (d.exponent + j).toNat := by omega
        rw [ofDecimal_eq hpos (by omega) (by omega) (j + k) (by omega),
          ofDecimal_eq hshift (by omega) (by omega) (j + k) (by omega), hexponent, hcoefficient,
          show d.exponent - k + (j + k : Nat) = d.exponent + j by omega, hsplit, Nat.pow_add 10 k,
          ← Nat.mul_assoc d.coefficient]

/-! ## The exact decimal -/

variable {x : Binary64}

theorem magnitude_lt (h : x.isFinite = true) : x.magnitude < 2 ^ 1024 * one := by
  have hinfinity : Format.binary64.magnitude infinityRank = 2 ^ 1024 * one := by decide +kernel
  rw [← hinfinity]
  exact Format.binary64.strictMono_magnitude (of_decide_eq_true h)

theorem magnitude_pos (h : x.isZero = false) : 0 < x.magnitude := by
  have hrank : x.rank ≠ 0 := of_decide_eq_false h
  have hlt := Format.binary64.strictMono_magnitude (Nat.pos_of_ne_zero hrank)
  rwa [Format.magnitude_zero] at hlt

theorem coefficient_expansion_pos (h : x.isZero = false) : 0 < x.expansion.coefficient :=
  Nat.mul_pos (magnitude_pos h) (Nat.pow_pos (by decide))

/-- A power of two is a power of ten with a power of five. -/
theorem five_pow_mul_one : 5 ^ unitExponent * one = 10 ^ unitExponent := by
  have hpowers : ∀ u : Nat, 5 ^ u * 2 ^ u = 10 ^ u := fun u => (Nat.mul_pow 5 2 u).symm
  rw [one, hpowers]

/-- The number of digits before the point of the exact decimal. -/
theorem point_expansion_le_iff (x : Binary64) (k : Nat) :
    x.expansion.point ≤ k ↔ x.magnitude < 10 ^ k * one := by
  have hlength : x.expansion.length ≤ k + unitExponent ↔ _ :=
    Decimal.length_le_iff (Nat.add_pos_right k (by decide))
  have hpoint : x.expansion.point = x.expansion.length - unitExponent := rfl
  have hcoefficient : x.expansion.coefficient = x.magnitude * 5 ^ unitExponent := rfl
  rw [hcoefficient, Nat.pow_add, ← five_pow_mul_one, Nat.mul_comm (5 ^ unitExponent) one,
    ← Nat.mul_assoc, Nat.mul_lt_mul_right (Nat.pow_pos (by decide))] at hlength
  rw [← hlength, hpoint]
  omega

/-- The exact decimal is within the range that is looked at. -/
theorem point_expansion_bounds (hfinite : x.isFinite = true) (hzero : x.isZero = false) :
    -400 ≤ x.expansion.point ∧ x.expansion.point ≤ 400 := by
  have hhigh : x.magnitude < 10 ^ 400 * one :=
    Nat.lt_trans (magnitude_lt hfinite) (by decide +kernel)
  refine ⟨?_, (point_expansion_le_iff x 400).mpr hhigh⟩
  -- The power of five alone has enough digits.
  have hlength : ¬x.expansion.length ≤ 674 := by
    have hfive : 10 ^ 674 ≤ 5 ^ unitExponent := by decide +kernel
    have hcoefficient := Nat.le_mul_of_pos_left (5 ^ unitExponent) (magnitude_pos hzero)
    rw [Decimal.length_le_iff (by decide), Nat.not_lt]
    exact Nat.le_trans hfive hcoefficient
  have hpoint : x.expansion.point = x.expansion.length - unitExponent := rfl
  have hexponent : unitExponent = 1074 := rfl
  omega

/-- The exact decimal reads back. -/
theorem ofDecimal_expansion (hfinite : x.isFinite = true) (hzero : x.isZero = false) :
    ofDecimal x.negative x.expansion = x := by
  obtain ⟨hlow, hhigh⟩ := point_expansion_bounds hfinite hzero
  have hexponent : x.expansion.exponent + unitExponent = 0 := Int.add_left_neg _
  have hcoefficient : x.expansion.coefficient = x.magnitude * 5 ^ unitExponent := rfl
  have hscale := ofRatio_mul_right (Nat.pow_pos (n := unitExponent) (show 0 < 10 by decide))
    x.negative x.magnitude 1
  rw [ofDecimal_eq (coefficient_expansion_pos hzero) hhigh hlow unitExponent (by omega), hexponent,
    Int.toNat_zero, Nat.pow_zero, Nat.mul_one, hcoefficient, Nat.mul_assoc, five_pow_mul_one]
  rw [Nat.one_mul, ofRatio_magnitude (isNaN_of_isFinite hfinite)] at hscale
  exact hscale

/-! ## The shortest decimal -/

/-- What is found reads back, and is one of the two neighbours of the number. -/
theorem shortened_eq_some {places : Nat} {d : Decimal} (h : x.shortened places = some d) :
    ofDecimal x.negative d = x ∧ d.exponent = places - unitExponent ∧
      (d.coefficient = x.expansion.coefficient / 10 ^ places ∨
        d.coefficient = x.expansion.coefficient / 10 ^ places + 1) := by
  unfold shortened at h
  simp only at h
  split at h
  · rename_i hbelow
    cases h
    rw [Bool.and_eq_true] at hbelow
    exact ⟨eq_of_beq hbelow.1, rfl, .inl rfl⟩
  · split at h
    · rename_i habove
      cases h
      exact ⟨eq_of_beq habove, rfl, .inr rfl⟩
    · cases h

/-- The shortest decimal is found where the most digits are left out, or it is the exact one. -/
theorem shortest_cases (x : Binary64) :
    (∃ places < x.expansion.length, x.shortened places = some x.shortest ∧
      ∀ more < x.expansion.length, places < more → x.shortened more = none) ∨
    (x.shortest = x.expansion ∧ ∀ more < x.expansion.length, x.shortened more = none) := by
  unfold shortest
  cases hfound : (List.range x.expansion.length).findSome? fun i =>
      x.shortened (x.expansion.length - 1 - i) with
  | none =>
    refine .inr ⟨rfl, fun more hmore => ?_⟩
    have hnone := List.findSome?_eq_none_iff.mp hfound (x.expansion.length - 1 - more)
      (List.mem_range.mpr (by omega))
    rwa [show x.expansion.length - 1 - (x.expansion.length - 1 - more) = more by omega] at hnone
  | some d =>
    obtain ⟨before, i, after, hrange, hi, hbefore⟩ := List.findSome?_eq_some_iff.mp hfound
    -- What was looked at before are the lengths below this one.
    rw [List.range_eq_range', List.range'_eq_append_iff] at hrange
    obtain ⟨k, hk, rfl, htail⟩ := hrange
    obtain ⟨hik, hrest, -⟩ := List.range'_eq_cons_iff.mp htail.symm
    refine .inl ⟨_, by omega, hi, fun more hmore hlt => ?_⟩
    have hnone := hbefore (x.expansion.length - 1 - more)
      (List.mem_range'_1.mpr ⟨Nat.zero_le _, by omega⟩)
    rwa [show x.expansion.length - 1 - (x.expansion.length - 1 - more) = more by omega] at hnone

/-- The shortest decimal reads back. -/
theorem ofDecimal_shortest (hfinite : x.isFinite = true) (hzero : x.isZero = false) :
    ofDecimal x.negative x.shortest = x := by
  rcases shortest_cases x with ⟨places, -, hfound, -⟩ | ⟨hexact, -⟩
  · exact (shortened_eq_some hfound).1
  · rw [hexact, ofDecimal_expansion hfinite hzero]

/-- A decimal of nothing but zeros would read back as zero. -/
theorem coefficient_shortest_pos (hfinite : x.isFinite = true) (hzero : x.isZero = false) :
    0 < x.shortest.coefficient := by
  refine Nat.pos_of_ne_zero fun h => ?_
  have hread := ofDecimal_shortest hfinite hzero
  rw [ofDecimal, if_pos h] at hread
  rw [← hread] at hzero
  cases hzero

/-- A shorter decimal has no fewer digits before its point. -/
theorem point_expansion_le (x : Binary64) : x.expansion.point ≤ x.shortest.point := by
  rcases shortest_cases x with ⟨places, -, hfound, -⟩ | ⟨hexact, -⟩
  · obtain ⟨-, hexponent, hcoefficient⟩ := shortened_eq_some hfound
    have hlength : 0 < x.shortest.length := Nat.length_toDigits_pos
    have hbelow : x.shortest.coefficient < 10 ^ x.shortest.length :=
      (Decimal.length_le_iff hlength).mp (Nat.le_refl _)
    have hquotient : x.expansion.coefficient / 10 ^ places < 10 ^ x.shortest.length := by omega
    rw [Nat.div_lt_iff_lt_mul (Nat.pow_pos (by decide)), ← Nat.pow_add] at hquotient
    have hexpansion := (Decimal.length_le_iff (Nat.add_pos_left hlength places)).mpr hquotient
    have hpoint : x.expansion.point = x.expansion.length - unitExponent := rfl
    rw [hpoint, Decimal.point, hexponent]
    omega
  · rw [hexact]

theorem point_shortest_le (hfinite : x.isFinite = true) (hzero : x.isZero = false) :
    x.shortest.point ≤ 400 := by
  by_contra hhigh
  have hread := ofDecimal_shortest hfinite hzero
  rw [ofDecimal, if_neg (Nat.ne_of_gt (coefficient_shortest_pos hfinite hzero)),
    if_pos (Int.not_le.mp hhigh)] at hread
  rw [← hread] at hfinite
  cases hfinite

/-! ## Whole numbers -/

/-- The exact decimal of a whole number has zeros behind the point. -/
theorem expansion_of_isWhole (hwhole : x.isWhole = true) :
    x.expansion = Decimal.shift ⟨x.magnitude / one, 0⟩ unitExponent := by
  simp only [isWhole, Bool.and_eq_true, decide_eq_true_eq] at hwhole
  have hvalue : x.magnitude = x.magnitude / one * one := by
    have hsplit := Nat.div_add_mod' x.magnitude one
    omega
  rw [expansion, Decimal.shift, ← five_pow_mul_one, Nat.mul_comm (5 ^ unitExponent),
    ← Nat.mul_assoc, ← hvalue, Int.zero_sub]

/-- A whole number is found where all digits before its point are there. -/
theorem exists_shortened (hwhole : x.isWhole = true) (hzero : x.isZero = false) :
    unitExponent < x.expansion.length ∧ ∃ d, x.shortened unitExponent = some d := by
  have hfinite : x.isFinite = true := (Bool.and_eq_true_iff.mp hwhole).1
  have hexact := expansion_of_isWhole hwhole
  have hcoefficient : x.expansion.coefficient = x.magnitude / one * 10 ^ unitExponent := by
    rw [hexact]
    rfl
  have hpositive : 0 < x.magnitude / one := by
    have h := coefficient_expansion_pos hzero
    rw [hcoefficient] at h
    exact Nat.pos_of_mul_pos_right h
  constructor
  · have hdigits : 0 < (Text.decimal (x.magnitude / one)).length := Nat.length_toDigits_pos
    rw [Decimal.length, hcoefficient, decimal_mul_pow hpositive, List.length_append,
      List.length_replicate]
    omega
  · -- What is left out are zeros, so that the lower neighbour is the number itself.
    have hpower : 0 < 10 ^ unitExponent := Nat.pow_pos (by decide)
    have hread := ofDecimal_expansion hfinite hzero
    rw [hexact, ofDecimal_shift] at hread
    have hbelow : x.readsBack ⟨x.expansion.coefficient / 10 ^ unitExponent,
        (unitExponent : Int) - unitExponent⟩ = true := by
      rw [hcoefficient, Nat.mul_div_cancel _ hpower, Int.sub_self]
      exact beq_iff_eq.mpr hread
    have hnear : 2 * (x.expansion.coefficient % 10 ^ unitExponent) < 10 ^ unitExponent := by
      rw [hcoefficient, Nat.mul_mod_left]
      exact hpower
    refine ⟨_, if_pos ?_⟩
    rw [hbelow, decide_eq_true hnear, Bool.or_true, Bool.and_true]

/-- The shortest decimal of a whole number has no digits behind the point. -/
theorem exponent_shortest (hwhole : x.isWhole = true) (hzero : x.isZero = false) :
    0 ≤ x.shortest.exponent := by
  obtain ⟨hlength, d, hd⟩ := exists_shortened hwhole hzero
  rcases shortest_cases x with ⟨places, -, hfound, hbefore⟩ | ⟨-, hnone⟩
  · -- Had fewer digits been left out, the number would have been found before.
    have hplaces : unitExponent ≤ places := by
      by_contra hless
      have hnone := hbefore unitExponent hlength (Nat.not_le.mp hless)
      rw [hd] at hnone
      cases hnone
    rw [(shortened_eq_some hfound).2.1]
    omega
  · have hnone := hnone unitExponent hlength
    rw [hd] at hnone
    cases hnone

end Binary64

end Octets
