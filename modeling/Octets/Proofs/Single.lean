import Octets.Number.Binary32
import Octets.Proofs.SmallNumber

/-!
# Rounding to the 32-bit format

A number that is narrowed to a 32-bit pattern and widened again is the number rounded to the 32-bit
format. What that is, is said without patterns (`Binary32.Rounded`): it is a number of the same
sign whose magnitude is the nearest of the 32-bit format, even where two are as near, and infinity
where the nearest is beyond the last finite one.

* `Binary32.widen_magnitude`: every finite pattern widens to a number of the same value.
* `Binary32.rounded_iff`: there is one rounded number, and narrowing and widening gives it.
* `Binary32.narrow_widen`: a pattern that is widened and narrowed again is the same.
-/

namespace Octets

namespace Binary64

/-- A number is determined by its sign and rank. -/
theorem eq_of_rank {x y : Binary64} (hsign : x.negative = y.negative) (hrank : x.rank = y.rank) :
    x = y := by
  obtain ⟨_, _, _⟩ := x
  obtain ⟨_, _, _⟩ := y
  cases hsign
  cases hrank
  rfl

theorem negative_ofRatio (negative : Bool) (num den : Nat) :
    (ofRatio negative num den).negative = negative := rfl

/-- The magnitude of what is not above infinity is rounded to itself. -/
theorem ofRatio_magnitude {x : Binary64} (h : x.isNaN = false) :
    ofRatio x.negative x.magnitude 1 = x := by
  have hle : x.rank ≤ Format.binary64.infinityRank := by
    rw [← infinityRank_eq]
    exact Nat.le_of_not_lt (of_decide_eq_false h)
  have hrank : (ofRatio x.negative x.magnitude 1).rank = x.rank := by
    have hnearest := Format.nearestRank_magnitude (f := .binary64) (by decide) Nat.one_pos hle
    rwa [Nat.mul_one] at hnearest
  exact eq_of_rank (negative_ofRatio x.negative x.magnitude 1) hrank

end Binary64

namespace Binary32

/-! ## Patterns -/

/-- The pattern with a given sign and rank. -/
def pattern (negative : Bool) (rank : Nat) : Nat := (if negative then 0x80000000 else 0) + rank

/-- The sign and the rank of a pattern. -/
theorem pattern_parts (negative : Bool) {rank : Nat} (h : rank < 0x80000000) :
    pattern negative rank % 0x80000000 = rank ∧
      (pattern negative rank / 0x80000000 % 2 == 1) = negative := by
  unfold pattern
  cases negative
  · rw [if_neg (by decide)]
    exact ⟨by omega, beq_eq_false_iff_ne.mpr (by omega)⟩
  · rw [if_pos rfl]
    exact ⟨by omega, beq_iff_eq.mpr (by omega)⟩

theorem unit_pos : 0 < unit := Nat.two_pow_pos _

theorem infinityRank_lt : infinityRank < 0x80000000 := by decide

/-- What is a number is narrowed to the pattern of its sign and its nearest rank. -/
theorem narrow_eq_pattern {x : Binary64} (h : x.isNaN = false) :
    narrow x = pattern x.negative (Format.binary32.nearestRank x.magnitude unit) :=
  if_neg (by rw [h]; decide)

/-- A pattern has 32 bits. -/
theorem narrow_lt (x : Binary64) : narrow x < 0x100000000 := by
  cases h : x.isNaN with
  | true => exact lt_of_eq_of_lt (if_pos h) (by decide)
  | false =>
    have hle := Format.nearestRank_le .binary32 x.magnitude unit
    have hinfinity := infinityRank_lt
    rw [infinityRank_eq] at hinfinity
    rw [narrow_eq_pattern h]
    unfold pattern
    split <;> omega

theorem widen_infinity (negative : Bool) :
    widen (pattern negative infinityRank) = .infinity negative := by
  obtain ⟨hrank, hsign⟩ := pattern_parts negative infinityRank_lt
  unfold widen
  rw [hrank, hsign, if_neg (Nat.lt_irrefl _), if_pos rfl]

/-- A finite pattern widens to the number of its sign nearest to its value. -/
theorem widen_finite (negative : Bool) {rank : Nat} (h : rank < infinityRank) :
    widen (pattern negative rank) =
      .ofRatio negative (Format.binary32.magnitude rank * unit) 1 := by
  obtain ⟨hrank, hsign⟩ := pattern_parts negative (Nat.lt_trans h infinityRank_lt)
  unfold widen
  rw [hrank, hsign, if_neg (by omega), if_neg (by omega)]

/-! ## Values -/

/-- The values of the 32-bit format are values of the 64-bit format. -/
theorem exists_magnitude_eq {rank : Nat} (h : rank < infinityRank) :
    ∃ m u, Format.binary32.magnitude rank * unit = m * 2 ^ u ∧ 52 ≤ u ∧ u ≤ 2045 ∧ m < 2 ^ 53 := by
  obtain ⟨exponent, significand, rfl, hlt, hnormal⟩ :=
    Format.binary32.exists_exponent_significand rank
  have hbinade : Format.binary32.binade = 2 ^ 23 := rfl
  have hinfinity : infinityRank = 255 * 2 ^ 23 := rfl
  have hunit : unit = 2 ^ (Binary64.unitExponent - unitExponent) := rfl
  have hscale : Binary64.unitExponent - unitExponent = 925 := rfl
  have hexponent : exponent < 255 := by
    by_contra hge
    have hproduct := Nat.mul_le_mul_right Format.binary32.binade (Nat.le_of_not_lt hge)
    omega
  refine ⟨significand, exponent + (Binary64.unitExponent - unitExponent), ?_, by omega, by omega,
    by omega⟩
  rw [Format.magnitude_add (Nat.le_of_lt hlt) hnormal, hunit, Nat.mul_assoc, ← Nat.pow_add]

/-- A finite pattern widens to a finite number of the same sign and the same value. -/
theorem widen_magnitude (negative : Bool) {rank : Nat} (h : rank < infinityRank) :
    (widen (pattern negative rank)).negative = negative ∧
      (widen (pattern negative rank)).isFinite = true ∧
      (widen (pattern negative rank)).magnitude = Format.binary32.magnitude rank * unit := by
  obtain ⟨m, u, hvalue, hlo, hhi, hm⟩ := exists_magnitude_eq h
  obtain ⟨hfinite, hmagnitude⟩ := Format.nearestRank_small hlo hhi hm
  rw [widen_finite negative h, hvalue]
  rw [← Binary64.infinityRank_eq] at hfinite
  exact ⟨rfl, decide_eq_true hfinite, hmagnitude⟩

/-! ## Rounded numbers -/

/-- The second number is the first rounded to the 32-bit format. -/
inductive Rounded (x : Binary64) : Binary64 → Prop where
  | nan (h : x.isNaN = true) : Rounded x .nan
  | infinite (h : x.isInfinite = true) : Rounded x x
  /-- The nearest value is the place of infinity. -/
  | overflow (h : x.isFinite = true)
      (hnearest : Format.binary32.Nearest x.magnitude unit infinityRank) :
      Rounded x (.infinity x.negative)
  /-- The nearest value is that of a finite rank. -/
  | finite (h : x.isFinite = true) {rank : Nat} {y : Binary64}
      (hnearest : Format.binary32.Nearest x.magnitude unit rank) (hrank : rank < infinityRank)
      (hsign : y.negative = x.negative) (hfinite : y.isFinite = true)
      (hvalue : y.magnitude = Format.binary32.magnitude rank * unit) : Rounded x y

/-- The rank that is computed is the only nearest one. -/
theorem nearest_iff {x : Binary64} {rank : Nat} :
    Format.binary32.Nearest x.magnitude unit rank ↔
      rank = Format.binary32.nearestRank x.magnitude unit := by
  have hcomputed := Format.nearest_nearestRank (f := .binary32) (by decide) unit_pos x.magnitude
  exact ⟨fun h => h.eq unit_pos hcomputed, fun h => h ▸ hcomputed⟩

/-- An infinity is narrowed to the infinity of its sign. -/
theorem narrow_infinite {x : Binary64} (h : x.isInfinite = true) :
    x = .infinity x.negative ∧ narrow x = pattern x.negative infinityRank := by
  have hrank : x.rank = Binary64.infinityRank := of_decide_eq_true h
  have hplace : Format.binary32.nearestRank (Format.binary64.magnitude Binary64.infinityRank) unit =
      infinityRank := by decide +kernel
  have hnumber : x.isNaN = false := decide_eq_false (by omega)
  refine ⟨Binary64.eq_of_rank rfl hrank, ?_⟩
  rw [narrow_eq_pattern hnumber, Binary64.magnitude, hrank, hplace]

/-- A pattern that is a number and is widened is narrowed to the same pattern: the number has the
value of the rank, which is the nearest one to it. -/
theorem narrow_widen {bits : Nat} (h : bits < 0x100000000)
    (hnumber : bits % 0x80000000 ≤ infinityRank) : narrow (widen bits) = bits := by
  obtain ⟨negative, rank, hbits, hrank⟩ : ∃ negative rank,
      bits = pattern negative rank ∧ rank ≤ infinityRank :=
    ⟨_, _, (@Binary64.sign_add_rank 0x80000000 bits h).symm, hnumber⟩
  rw [hbits]
  rcases Nat.lt_or_eq_of_le hrank with hlt | rfl
  · obtain ⟨hsign, hfinite, hvalue⟩ := widen_magnitude negative hlt
    rw [narrow_eq_pattern (Binary64.isNaN_of_isFinite hfinite), hsign, hvalue,
      Format.nearestRank_magnitude (by decide) unit_pos (infinityRank_eq ▸ hrank)]
  · rw [widen_infinity, (@narrow_infinite (.infinity negative) rfl).2]
    rfl

/-- A number that is narrowed and widened again is rounded. -/
theorem rounded_widen_narrow (x : Binary64) : Rounded x (widen (narrow x)) := by
  by_cases hnan : x.isNaN = true
  · have hnarrow : narrow x = 0x7FC00000 := if_pos hnan
    rw [hnarrow]
    exact .nan hnan
  · rw [Bool.not_eq_true] at hnan
    by_cases hinfinite : x.isInfinite = true
    · obtain ⟨hx, hnarrow⟩ := narrow_infinite hinfinite
      rw [hnarrow, widen_infinity, ← hx]
      exact .infinite hinfinite
    · have hle : ¬Binary64.infinityRank < x.rank := of_decide_eq_false hnan
      have hne : ¬x.rank = Binary64.infinityRank :=
        of_decide_eq_false (Bool.not_eq_true _ ▸ hinfinite)
      have hfinite : x.isFinite = true := decide_eq_true (by omega)
      have hnearest := nearest_iff (x := x).mpr rfl
      have hrank := hnearest.le_infinity
      rw [← infinityRank_eq] at hrank
      rw [narrow_eq_pattern hnan]
      rcases Nat.lt_or_eq_of_le hrank with hlt | heq
      · obtain ⟨hsign, hwide, hvalue⟩ := widen_magnitude x.negative hlt
        exact .finite hfinite hnearest hlt hsign hwide hvalue
      · rw [heq] at hnearest
        rw [heq, widen_infinity]
        exact .overflow hfinite hnearest

/-- There is one rounded number: the one that narrowing and widening gives. -/
theorem rounded_iff {x y : Binary64} : Rounded x y ↔ y = widen (narrow x) := by
  refine ⟨fun h => ?_, fun h => h ▸ rounded_widen_narrow x⟩
  cases h with
  | nan h =>
    have hnarrow : narrow x = 0x7FC00000 := if_pos h
    rw [hnarrow]
    rfl
  | infinite h =>
    obtain ⟨hx, hnarrow⟩ := narrow_infinite h
    rw [hnarrow, widen_infinity, ← hx]
  | overflow h hnearest =>
    rw [narrow_eq_pattern (Binary64.isNaN_of_isFinite h), ← nearest_iff.mp hnearest,
      widen_infinity]
  | finite h hnearest hrank hsign hfinite hvalue =>
    rw [narrow_eq_pattern (Binary64.isNaN_of_isFinite h), ← nearest_iff.mp hnearest,
      widen_finite _ hrank, ← hvalue, ← hsign,
      Binary64.ofRatio_magnitude (Binary64.isNaN_of_isFinite hfinite)]

end Binary32

end Octets
