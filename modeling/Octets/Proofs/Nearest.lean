import Mathlib.Order.Monotone.Basic
import Octets.Number.Rounding

/-!
# The nearest value of a binary format

What rounding is to give is said without computing it: among all ranks up to that of infinity, whose
place on the scale is just after the last finite value, one whose value is no farther from the
quotient than that of any other, and an even one where there is a choice (`Format.Nearest`).

* `Format.strictMono_magnitude`: greater ranks have greater values.
* `Format.nearest_nearestRank`: the rank that `Format.nearestRank` computes is nearest.
* `Format.Nearest.eq`: there is only one.
* `Format.nearestRank_magnitude`: the value of a rank is rounded to that rank.
-/

namespace Octets.Format

variable {f : Format} {num den rank : Nat}

/-! ## Values of ranks -/

theorem binade_pos (f : Format) : 0 < f.binade := Nat.two_pow_pos _

/-- The value of the rank with a given exponent and significand. A significand that is rounded up
to the next power of two belongs to the next exponent. -/
theorem magnitude_add {exponent significand : Nat} (hle : significand ≤ 2 * f.binade)
    (hnormal : exponent = 0 ∨ f.binade ≤ significand) :
    f.magnitude (exponent * f.binade + significand) = significand * 2 ^ exponent := by
  have hpos := f.binade_pos
  unfold magnitude
  by_cases hlt : significand < f.binade
  · have hzero : exponent = 0 := by omega
    subst hzero
    rw [Nat.zero_mul, Nat.zero_add, if_pos hlt, Nat.pow_zero, Nat.mul_one]
  · have hnot : ¬exponent * f.binade + significand < f.binade := by omega
    rw [if_neg hnot]
    by_cases hlast : significand = 2 * f.binade
    · have hsplit : exponent * f.binade + significand = f.binade * (exponent + 2) := by
        rw [hlast, Nat.mul_add, Nat.mul_comm exponent, Nat.mul_comm 2]
      rw [hsplit, Nat.mul_mod_right, Nat.mul_div_cancel_left _ hpos, hlast,
        show exponent + 2 - 1 = exponent + 1 by omega, Nat.pow_succ', ← Nat.mul_assoc,
        Nat.add_zero, Nat.mul_comm f.binade 2]
    · have hsplit : exponent * f.binade + significand =
          significand - f.binade + f.binade * (exponent + 1) := by
        rw [Nat.mul_add, Nat.mul_one, Nat.mul_comm]
        omega
      have hrest : significand - f.binade < f.binade := by omega
      rw [hsplit, Nat.add_mul_mod_self_left, Nat.mod_eq_of_lt hrest,
        Nat.add_mul_div_left _ _ hpos, Nat.div_eq_of_lt hrest, Nat.zero_add,
        Nat.add_sub_cancel, Nat.add_sub_cancel' (Nat.le_of_not_lt hlt)]

/-- Every rank has an exponent and a significand. -/
theorem exists_exponent_significand (f : Format) (rank : Nat) :
    ∃ exponent significand, rank = exponent * f.binade + significand ∧
      significand < 2 * f.binade ∧ (exponent = 0 ∨ f.binade ≤ significand) := by
  have hpos := f.binade_pos
  by_cases hlt : rank < f.binade
  · exact ⟨0, rank, by omega, by omega, .inl rfl⟩
  · have hdiv : 0 < rank / f.binade := Nat.div_pos (Nat.le_of_not_lt hlt) hpos
    have hmod := Nat.mod_lt rank hpos
    refine ⟨rank / f.binade - 1, f.binade + rank % f.binade, ?_, by omega, .inr (by omega)⟩
    have hsplit := Nat.div_add_mod' rank f.binade
    have hone : (rank / f.binade - 1) * f.binade + f.binade = rank / f.binade * f.binade := by
      rw [← Nat.succ_mul, Nat.succ_eq_add_one, Nat.sub_add_cancel hdiv]
    omega

/-- A greater rank has a greater value. -/
theorem strictMono_magnitude (f : Format) : StrictMono f.magnitude := by
  apply strictMono_nat_of_lt_succ
  intro rank
  obtain ⟨exponent, significand, rfl, hlt, hnormal⟩ := f.exists_exponent_significand rank
  rw [Nat.add_assoc, magnitude_add (Nat.le_of_lt hlt) hnormal, magnitude_add hlt (by omega)]
  exact Nat.mul_lt_mul_of_pos_right (Nat.lt_succ_self _) (Nat.two_pow_pos _)

/-! ## Nearest ranks -/

/-- How far the value of a rank lies from `num / den` units, counted in parts of `1 / den`. -/
def distance (f : Format) (num den rank : Nat) : Nat :=
  (f.magnitude rank * den - num) + (num - f.magnitude rank * den)

/-- The value of the rank is the nearest to `num / den` units, and the rank is even where another
one is as near. -/
structure Nearest (f : Format) (num den rank : Nat) : Prop where
  le_infinity : rank ≤ f.infinityRank
  least : ∀ other ≤ f.infinityRank, f.distance num den rank ≤ f.distance num den other
  even : ∀ other ≤ f.infinityRank, other ≠ rank →
    f.distance num den other = f.distance num den rank → rank % 2 = 0

/-- The exponent of a quotient leaves it a significand of the format. -/
theorem significand_bounds (hprecision : 0 < f.precision) (num den : Nat) :
    num / (den * 2 ^ f.exponentOf num den) < 2 * f.binade ∧
      (f.exponentOf num den = 0 ∨ f.binade ≤ num / (den * 2 ^ f.exponentOf num den)) := by
  have hdouble : 2 * f.binade = 2 ^ f.precision := by
    unfold binade
    rw [← Nat.pow_succ', Nat.succ_eq_add_one, Nat.sub_add_cancel hprecision]
  have hlog := Nat.lt_log2_self (n := num / den)
  rw [← Nat.div_div_eq_div_mul, Nat.div_lt_iff_lt_mul (Nat.two_pow_pos _),
    Nat.le_div_iff_mul_le (Nat.two_pow_pos _), hdouble, ← Nat.pow_add]
  unfold exponentOf binade
  by_cases hsmall : (num / den).log2 + 1 ≤ f.precision
  · refine ⟨Nat.lt_of_lt_of_le hlog (Nat.pow_le_pow_right (by decide) (by omega)), .inl ?_⟩
    omega
  · have hne : num / den ≠ 0 := by
      intro hzero
      rw [hzero, Nat.log2_zero] at hsmall
      omega
    rw [← Nat.pow_add, show f.precision + ((num / den).log2 + 1 - f.precision) =
        (num / den).log2 + 1 by omega,
      show f.precision - 1 + ((num / den).log2 + 1 - f.precision) = (num / den).log2 by omega]
    exact ⟨hlog, .inr (Nat.log2_self_le hne)⟩

/-- A quotient lies between the values of two consecutive ranks. The one of them that is nearer,
or the even one, is computed, unless it is beyond that of infinity. -/
theorem exists_bracket (hprecision : 2 ≤ f.precision) (hden : 0 < den) (num : Nat) :
    ∃ lower chosen, f.magnitude lower * den ≤ num ∧ num < f.magnitude (lower + 1) * den ∧
      f.nearestRank num den = min f.infinityRank chosen ∧
      (f.distance num den lower < f.distance num den (lower + 1) ∧ chosen = lower ∨
        f.distance num den (lower + 1) < f.distance num den lower ∧ chosen = lower + 1 ∨
        f.distance num den lower = f.distance num den (lower + 1) ∧
          chosen = lower + lower % 2) := by
  obtain ⟨hlt, hnormal⟩ := significand_bounds (by omega : 0 < f.precision) num den
  have hunit : 0 < den * 2 ^ f.exponentOf num den := Nat.mul_pos hden (Nat.two_pow_pos _)
  have hdivmod := Nat.div_add_mod' num (den * 2 ^ f.exponentOf num den)
  have hmod := Nat.mod_lt num hunit
  -- The two ranks have the exponent of the quotient, and its significand rounded down and up.
  have hlower := magnitude_add (Nat.le_of_lt hlt) hnormal
  have hupper := magnitude_add (show num / (den * 2 ^ f.exponentOf num den) + 1 ≤ 2 * f.binade
    from hlt) (hnormal.imp_right Nat.le_succ_of_le)
  rw [← Nat.add_assoc] at hupper
  have heven : f.exponentOf num den * f.binade % 2 = 0 := by
    have hbinade : f.binade = 2 ^ (f.precision - 2) * 2 := by
      unfold binade
      rw [← Nat.pow_succ]
      congr 1
      omega
    rw [hbinade, ← Nat.mul_assoc, Nat.mul_mod_left]
  have hscale : ∀ significand, significand * 2 ^ f.exponentOf num den * den =
      significand * (den * 2 ^ f.exponentOf num den) := fun significand => by
    rw [Nat.mul_assoc, Nat.mul_comm den]
  have hsucc := Nat.add_one_mul (num / (den * 2 ^ f.exponentOf num den))
    (den * 2 ^ f.exponentOf num den)
  refine ⟨f.exponentOf num den * f.binade + num / (den * 2 ^ f.exponentOf num den), _, ?_, ?_,
    rfl, ?_⟩
  · rw [hlower, hscale]
    omega
  · rw [hupper, hscale]
    omega
  · unfold roundHalfEven distance
    rw [hlower, hupper, hscale, hscale]
    split
    · exact .inl (by omega)
    · split
      · exact .inr (.inl (by omega))
      · exact .inr (.inr (by omega))

/-- Below the quotient, the value of a smaller rank is farther from it. -/
theorem distance_lt_of_lt {lower other : Nat} (hden : 0 < den)
    (hlower : f.magnitude lower * den ≤ num) (h : other < lower) :
    f.distance num den lower < f.distance num den other := by
  have hvalue := Nat.mul_lt_mul_of_pos_right (f.strictMono_magnitude h) hden
  unfold distance
  omega

/-- Above the quotient, the value of a greater rank is farther from it. -/
theorem distance_lt_of_gt {upper other : Nat} (hden : 0 < den)
    (hupper : num ≤ f.magnitude upper * den) (h : upper < other) :
    f.distance num den upper < f.distance num den other := by
  have hvalue := Nat.mul_lt_mul_of_pos_right (f.strictMono_magnitude h) hden
  unfold distance
  omega

/-- Two ranks whose values are equally far from a quotient lie on its two sides, and what is
between them is nearer. -/
theorem distance_lt_of_between {a b c : Nat} (hden : 0 < den) (hab : a < b) (hbc : b < c)
    (h : f.distance num den a = f.distance num den c) :
    f.distance num den b < f.distance num den a := by
  have hlow := Nat.mul_lt_mul_of_pos_right (f.strictMono_magnitude hab) hden
  have hhigh := Nat.mul_lt_mul_of_pos_right (f.strictMono_magnitude hbc) hden
  unfold distance at *
  omega

/-- A rank that is nearer than every other one is nearest. -/
theorem nearest_of_lt (hle : rank ≤ f.infinityRank)
    (h : ∀ other ≤ f.infinityRank, other ≠ rank →
      f.distance num den rank < f.distance num den other) : f.Nearest num den rank where
  le_infinity := hle
  least other hother := by
    by_cases heq : other = rank
    · rw [heq]
    · exact Nat.le_of_lt (h other hother heq)
  even other hother hne hsame := absurd hsame (Nat.ne_of_gt (h other hother hne))

/-- There is only one nearest rank. -/
theorem Nearest.eq {a b : Nat} (hden : 0 < den) (ha : f.Nearest num den a)
    (hb : f.Nearest num den b) : a = b := by
  have hsame := Nat.le_antisymm (ha.least b hb.le_infinity) (hb.least a ha.le_infinity)
  -- Two of them would be even, with an odd rank between them that is nearer.
  have hnot : ∀ a b, f.Nearest num den a → f.Nearest num den b →
      f.distance num den a = f.distance num den b → ¬a < b := by
    intro a b ha hb hsame hlt
    have haEven := ha.even b hb.le_infinity (Nat.ne_of_gt hlt) hsame.symm
    have hbEven := hb.even a ha.le_infinity (Nat.ne_of_lt hlt) hsame
    have hbetween := distance_lt_of_between hden (show a < a + 1 by omega)
      (show a + 1 < b by omega) hsame
    have hleast := ha.least (a + 1) (Nat.le_trans hlt hb.le_infinity)
    omega
  exact Nat.le_antisymm (Nat.le_of_not_lt (hnot b a hb ha hsame.symm))
    (Nat.le_of_not_lt (hnot a b ha hb hsame))

/-- The rank that is computed is nearest. -/
theorem nearest_nearestRank (hprecision : 2 ≤ f.precision) (hden : 0 < den) (num : Nat) :
    f.Nearest num den (f.nearestRank num den) := by
  obtain ⟨lower, chosen, hlow, hhigh, hrank, hchosen⟩ := exists_bracket hprecision hden num
  rw [hrank]
  by_cases hinfinity : f.infinityRank ≤ lower
  · -- Beyond the last finite value all ranks lie below the quotient.
    have hbelow := Nat.le_trans
      (Nat.mul_le_mul_right den (f.strictMono_magnitude.monotone hinfinity)) hlow
    rw [Nat.min_eq_left (by omega)]
    exact nearest_of_lt (Nat.le_refl _) fun other hle hne =>
      distance_lt_of_lt hden hbelow (Nat.lt_of_le_of_ne hle hne)
  · -- Every other rank lies beyond one of the two that enclose the quotient.
    have hfar : ∀ other, other ≠ lower → other ≠ lower + 1 →
        f.distance num den lower < f.distance num den other ∨
          f.distance num den (lower + 1) < f.distance num den other := by
      intro other hne hneSucc
      by_cases h : other < lower
      · exact .inl (distance_lt_of_lt hden hlow h)
      · exact .inr (distance_lt_of_gt hden (Nat.le_of_lt hhigh) (by omega))
    rw [Nat.min_eq_right (by omega)]
    rcases hchosen with ⟨hnearer, rfl⟩ | ⟨hnearer, rfl⟩ | ⟨htie, rfl⟩
    · refine nearest_of_lt (by omega) fun other _ hne => ?_
      by_cases hsucc : other = chosen + 1
      · rw [hsucc]
        exact hnearer
      · rcases hfar other hne hsucc with h | h <;> omega
    · refine nearest_of_lt (by omega) fun other _ hne => ?_
      by_cases hlower : other = lower
      · rw [hlower]
        exact hnearer
      · rcases hfar other hlower hne with h | h <;> omega
    · have hsame : f.distance num den (lower + lower % 2) = f.distance num den lower := by
        rcases Nat.mod_two_eq_zero_or_one lower with h | h
        · rw [h, Nat.add_zero]
        · rw [h, htie]
      refine ⟨by omega, fun other _ => ?_, fun other _ _ _ => by omega⟩
      rw [hsame]
      by_cases hlower : other = lower
      · rw [hlower]
      · by_cases hsucc : other = lower + 1
        · rw [hsucc, htie]
        · rcases hfar other hlower hsucc with h | h <;> omega

/-- A value that is not above a quotient is not above what the quotient is rounded to. -/
theorem le_nearestRank (hprecision : 2 ≤ f.precision) (hden : 0 < den)
    (hle : rank ≤ f.infinityRank) (h : f.magnitude rank * den ≤ num) :
    rank ≤ f.nearestRank num den := by
  by_contra hlt
  have hfar := distance_lt_of_lt hden h (Nat.not_le.mp hlt)
  have hleast := (nearest_nearestRank hprecision hden num).least rank hle
  omega

/-- The value of a rank is rounded to that rank. -/
theorem nearestRank_magnitude (hprecision : 2 ≤ f.precision) (hden : 0 < den)
    (hle : rank ≤ f.infinityRank) : f.nearestRank (f.magnitude rank * den) den = rank := by
  refine (nearest_nearestRank hprecision hden _).eq hden (nearest_of_lt hle fun other _ hne => ?_)
  have hvalue : f.magnitude rank * den ≠ f.magnitude other * den := fun h =>
    hne (f.strictMono_magnitude.injective (Nat.eq_of_mul_eq_mul_right hden h)).symm
  unfold distance
  omega

end Octets.Format
