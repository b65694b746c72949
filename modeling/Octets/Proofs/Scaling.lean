import Octets.Proofs.Nearest

/-!
# Rounding of multiples

What a quotient is rounded to depends on its value alone, not on how it is written
(`Format.nearestRank_mul_right`). A value with all significant bits of the format that is multiplied
by a power of two keeps its significand, so that its rank moves by whole binades
(`Format.nearestRank_mul_two_pow`).

Something less than this power of two may be added to such a multiple. It is below the bits that are
kept, and so changes what the sum is rounded to in one case only: where the multiple is halfway
between two values, and the lower one is taken because it is even (`Format.nearestRank_add_eq_iff`).
-/

namespace Octets

variable {num den k t : Nat}

theorem roundHalfEven_mul_right (hk : 0 < k) :
    roundHalfEven (num * k) (den * k) = roundHalfEven num den := by
  unfold roundHalfEven
  rw [Nat.mul_mod_mul_right, Nat.mul_div_mul_right _ _ hk]
  simp only [← Nat.mul_assoc, Nat.mul_lt_mul_right hk]

/-- What is less than a half is only noticed where there is a tie that goes to the lower number. -/
theorem roundHalfEven_mul_add (heven : den % 2 = 0) (ht : t < k) :
    roundHalfEven (num * k + t) (den * k) =
      if 2 * (num % den) = den ∧ num / den % 2 = 0 ∧ 0 < t then num / den + 1
      else roundHalfEven num den := by
  have hk : 0 < k := by omega
  have hdiv : (num * k + t) / (den * k) = num / den := by
    rw [Nat.mul_comm den k, ← Nat.div_div_eq_div_mul, Nat.mul_comm num k,
      Nat.mul_add_div hk, Nat.div_eq_of_lt ht, Nat.add_zero]
  have hmod : (num * k + t) % (den * k) = num % den * k + t := by
    rw [Nat.mul_comm den k, Nat.mod_mul, Nat.mul_comm num k, Nat.mul_add_mod, Nat.mod_eq_of_lt ht,
      Nat.mul_add_div hk, Nat.div_eq_of_lt ht, Nat.add_zero, Nat.mul_comm k, Nat.add_comm]
  unfold roundHalfEven
  rw [hdiv, hmod]
  generalize hr : num % den = r
  rcases Nat.lt_trichotomy (2 * r) den with hlt | heq | hgt
  · have hroom := Nat.mul_le_mul_right k (show 2 * r + 2 ≤ den by omega)
    rw [Nat.add_mul, Nat.mul_assoc] at hroom
    rw [if_pos (by omega), if_neg (by omega), if_pos hlt]
  · have hhalf := congrArg (· * k) heq
    simp only [Nat.mul_assoc] at hhalf
    rw [if_neg (by omega), if_neg (show ¬2 * r < den by omega),
      if_neg (show ¬den < 2 * r by omega)]
    by_cases hzero : t = 0
    · rw [if_neg (by omega), if_neg (by omega)]
    · rw [if_pos (by omega)]
      split <;> omega
  · have hroom := Nat.mul_le_mul_right k (show den + 1 ≤ 2 * r by omega)
    rw [Nat.add_mul, Nat.mul_assoc] at hroom
    rw [if_neg (by omega), if_pos (by omega), if_neg (by omega),
      if_neg (show ¬2 * r < den by omega), if_pos hgt]

namespace Format

variable {f : Format} {n : Nat}

/-- A quotient that is written with other terms is rounded to the same rank. -/
theorem nearestRank_mul_right (hk : 0 < k) :
    f.nearestRank (num * k) (den * k) = f.nearestRank num den := by
  unfold nearestRank exponentOf
  rw [Nat.mul_div_mul_right _ _ hk, Nat.mul_right_comm, roundHalfEven_mul_right hk]

/-- The exponent of a multiple is greater by that of the factor, whatever is added below it. -/
theorem exponentOf_mul_add (hn : f.binade ≤ n) (ht : t < 2 ^ k) :
    f.exponentOf (n * 2 ^ k + t) 1 = f.exponentOf n 1 + k := by
  have hne : n ≠ 0 := Nat.ne_of_gt (Nat.lt_of_lt_of_le f.binade_pos hn)
  have hlog : (n * 2 ^ k + t).log2 = n.log2 + k := by
    have hleast := Nat.mul_le_mul_right (2 ^ k) (Nat.log2_self_le hne)
    have hmost := Nat.mul_le_mul_right (2 ^ k) (Nat.succ_le_of_lt (Nat.lt_log2_self (n := n)))
    rw [← Nat.pow_add] at hleast hmost
    rw [Nat.succ_mul, Nat.add_right_comm] at hmost
    have hpos := Nat.two_pow_pos (n.log2 + k)
    exact (Nat.log2_eq_iff (by omega)).mpr ⟨by omega, by omega⟩
  have hprecision : f.precision - 1 ≤ n.log2 := (Nat.le_log2 hne).mpr hn
  unfold exponentOf
  rw [Nat.div_one, Nat.div_one, hlog]
  omega

/-- The rank that is nearest to a multiple with something added below it. -/
theorem nearestRank_mul_add (hn : f.binade ≤ n) (ht : t < 2 ^ k) :
    f.nearestRank (n * 2 ^ k + t) 1 = min f.infinityRank ((f.exponentOf n 1 + k) * f.binade +
      roundHalfEven (n * 2 ^ k + t) (2 ^ f.exponentOf n 1 * 2 ^ k)) := by
  rw [nearestRank, exponentOf_mul_add hn ht, Nat.one_mul, Nat.pow_add]

/-- A value with all significant bits keeps them when it is multiplied by a power of two. -/
theorem nearestRank_mul_two_pow (hn : f.binade ≤ n) (k : Nat) :
    f.nearestRank (n * 2 ^ k) 1 = min f.infinityRank (f.nearestRank n 1 + k * f.binade) := by
  have hmultiple := nearestRank_mul_add hn (Nat.two_pow_pos k)
  rw [Nat.add_zero, roundHalfEven_mul_right (Nat.two_pow_pos k)] at hmultiple
  rw [hmultiple, nearestRank, Nat.one_mul, Nat.add_mul]
  omega

/-- The value is halfway between that of the rank and that of the next one. -/
def Halfway (f : Format) (n rank : Nat) : Prop :=
  2 * n = f.magnitude rank + f.magnitude (rank + 1)

instance (f : Format) (n rank : Nat) : Decidable (f.Halfway n rank) :=
  inferInstanceAs (Decidable (_ = _))

/-- A multiple is halfway between the value that it is rounded to and the next one exactly where
there is a tie that goes to the lower value. -/
theorem halfway_iff {e : Nat} (hlt : n / 2 ^ e < 2 * f.binade) (hnormal : f.binade ≤ n / 2 ^ e) :
    f.Halfway (n * 2 ^ k) ((e + k) * f.binade + roundHalfEven n (2 ^ e)) ↔
      2 * (n % 2 ^ e) = 2 ^ e ∧ n / 2 ^ e % 2 = 0 := by
  have hlower : f.magnitude ((e + k) * f.binade + n / 2 ^ e) = n / 2 ^ e * 2 ^ (e + k) :=
    magnitude_add (Nat.le_of_lt hlt) (.inr hnormal)
  have hupper : f.magnitude ((e + k) * f.binade + (n / 2 ^ e + 1)) =
      (n / 2 ^ e + 1) * 2 ^ (e + k) :=
    magnitude_add (Nat.succ_le_of_lt hlt) (.inr (by omega))
  have hsplit := congrArg (· * 2 ^ k) (Nat.div_add_mod' n (2 ^ e))
  have hnext := Nat.add_one_mul (n / 2 ^ e) (2 ^ (e + k))
  simp only [Nat.add_mul, Nat.mul_assoc, ← Nat.pow_add] at hsplit
  -- Rounded down, the next value is that of the greater significand.
  have hdown : f.Halfway (n * 2 ^ k) ((e + k) * f.binade + n / 2 ^ e) ↔
      2 * (n % 2 ^ e) = 2 ^ e := by
    have hscale : 2 * (n % 2 ^ e) = 2 ^ e ↔ 2 * (n % 2 ^ e * 2 ^ k) = 2 ^ (e + k) := by
      rw [Nat.pow_add, ← Nat.mul_assoc, Nat.mul_left_inj (Nat.ne_of_gt (Nat.two_pow_pos k))]
    rw [hscale, Halfway, Nat.add_assoc, hlower, hupper]
    omega
  -- Rounded up, both values are above the multiple.
  have hup : ¬f.Halfway (n * 2 ^ k) ((e + k) * f.binade + (n / 2 ^ e + 1)) := by
    have habove := f.strictMono_magnitude
      (Nat.lt_add_one ((e + k) * f.binade + (n / 2 ^ e + 1)))
    have hrest := Nat.mul_lt_mul_of_pos_right (Nat.mod_lt n (Nat.two_pow_pos e)) (Nat.two_pow_pos k)
    rw [← Nat.pow_add] at hrest
    rw [hupper] at habove
    rw [Halfway, hupper]
    omega
  unfold roundHalfEven
  split
  · rw [hdown]
    omega
  · split
    · exact iff_of_false hup (by omega)
    · rcases Nat.mod_two_eq_zero_or_one (n / 2 ^ e) with heven | hodd
      · rw [heven, Nat.add_zero, hdown]
        omega
      · rw [hodd]
        exact iff_of_false hup (by omega)

/-- Something less than the power of two is added to a multiple of it. The sum is rounded to the
same rank, unless this is finite and the multiple is halfway to the next one. -/
theorem nearestRank_add_eq_iff (hprecision : 0 < f.precision) (hn : 2 * f.binade ≤ n)
    (ht : t < 2 ^ k) :
    f.nearestRank (n * 2 ^ k + t) 1 = f.nearestRank (n * 2 ^ k) 1 ↔
      ¬(f.nearestRank (n * 2 ^ k) 1 < f.infinityRank ∧
        f.Halfway (n * 2 ^ k) (f.nearestRank (n * 2 ^ k) 1) ∧ 0 < t) := by
  obtain ⟨hlt, hnormal⟩ := significand_bounds hprecision n 1
  have hmultiple := nearestRank_mul_add (f := f) (n := n) (by omega) (Nat.two_pow_pos k)
  have hsum := nearestRank_mul_add (f := f) (n := n) (by omega) ht
  have hexponent : 0 < f.exponentOf n 1 := by
    by_contra hzero
    rw [Nat.eq_zero_of_not_pos hzero, Nat.pow_zero, Nat.mul_one, Nat.div_one] at hlt
    omega
  rw [Nat.one_mul] at hlt hnormal
  rw [Nat.add_zero, roundHalfEven_mul_right (Nat.two_pow_pos k)] at hmultiple
  rw [roundHalfEven_mul_add (Nat.two_pow_mod_two_eq_zero.mpr hexponent) ht] at hsum
  have hhalfway := halfway_iff (k := k) hlt (hnormal.resolve_left (Nat.ne_of_gt hexponent))
  generalize f.exponentOf n 1 = e at *
  have hrank : f.nearestRank (n * 2 ^ k) 1 < f.infinityRank →
      f.nearestRank (n * 2 ^ k) 1 = (e + k) * f.binade + roundHalfEven n (2 ^ e) := by omega
  by_cases hlost : 2 * (n % 2 ^ e) = 2 ^ e ∧ n / 2 ^ e % 2 = 0 ∧ 0 < t
  · have hdown : roundHalfEven n (2 ^ e) = n / 2 ^ e := by
      rw [roundHalfEven, if_neg (by omega), if_neg (by omega), hlost.2.1, Nat.add_zero]
    rw [if_pos hlost] at hsum
    by_cases hfinite : f.nearestRank (n * 2 ^ k) 1 < f.infinityRank
    · have hplace := hrank hfinite
      rw [← hplace] at hhalfway
      rw [hdown] at hplace
      exact iff_of_false (by omega)
        (not_not_intro ⟨hfinite, hhalfway.mpr ⟨hlost.1, hlost.2.1⟩, hlost.2.2⟩)
    · exact iff_of_true (by omega) fun h => hfinite h.1
  · rw [if_neg hlost] at hsum
    refine iff_of_true (hsum.trans hmultiple.symm) fun ⟨hfinite, hhalf, hpos⟩ => hlost ?_
    rw [hrank hfinite, hhalfway] at hhalf
    exact ⟨hhalf.1, hhalf.2, hpos⟩

end Format

end Octets
