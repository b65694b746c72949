import Mathlib.Data.Nat.Digits.Defs
import Octets.Number.Text
import Octets.Proofs.Hexadecimal
import Octets.Proofs.Scaling
import Octets.Proofs.Single

/-!
# Literals in base 16, 8 and 2

The digits of a literal are taken in one by one, each by a rounded product and a rounded sum. The
product loses nothing, because the base is a power of two (`Binary64.ofNat_mul_two_pow`). The sum
loses nothing as long as the number before it has at most 53 bits. From there on a digit is less
than half of the last bit that is kept, and is lost (`Binary64.appendDigit_ofNat`).

So the number of a literal is the nearest one to an integer, but this is the integer with zeros for
the digits behind those that make up its first 53 bits (`Binary64.kept`). It is the nearest one to
the literal itself, unless the integer with the zeros is halfway between two numbers and is rounded
down, where a digit that was lost would have decided (`Binary64.ofText_literal`).
-/

namespace Octets

namespace Binary64

variable {m d b : Nat}

/-! ## Rounded natural numbers -/

/-- The number is the nearest one to a natural number, and the even one of two that are as near;
infinity stands for what is nearest to its place after the last finite number. -/
def IsNearestTo (x : Binary64) (n : Nat) : Prop :=
  x.negative = false ∧ Format.binary64.Nearest (n * one) 1 x.rank

theorem negative_ofNat (n : Nat) : (ofNat n).negative = false := by
  have hnonneg := Int.mul_nonneg (Int.natCast_nonneg n) (Int.le_of_lt one_pos)
  exact decide_eq_false (Int.not_lt.mpr hnonneg)

theorem rank_ofNat (n : Nat) : (ofNat n).rank = Format.binary64.nearestRank (n * one) 1 :=
  rank_ofInt n

/-- There is one nearest number. -/
theorem isNearestTo_iff {x : Binary64} {n : Nat} : x.IsNearestTo n ↔ x = ofNat n := by
  have hnearest := Format.nearest_nearestRank (f := .binary64) (by decide) Nat.one_pos (n * one)
  constructor
  · intro h
    refine eq_of_rank (h.1.trans (negative_ofNat n).symm) ?_
    rw [rank_ofNat]
    exact h.2.eq Nat.one_pos hnearest
  · rintro rfl
    exact ⟨negative_ofNat n, rank_ofNat n ▸ hnearest⟩

/-- A natural number that is not zero has all significant bits, in units of the least number. -/
theorem binade_le_mul_one (hm : 0 < m) : Format.binary64.binade ≤ m * one := by
  have hone : Format.binary64.binade ≤ one := Nat.pow_le_pow_right (by decide) (by decide)
  exact Nat.le_trans hone (Nat.le_mul_of_pos_left one hm)

theorem rank_ofNat_mul_two_pow (hm : 0 < m) (k : Nat) :
    (ofNat (m * 2 ^ k)).rank =
      min infinityRank ((ofNat m).rank + k * Format.binary64.binade) := by
  rw [rank_ofNat, rank_ofNat, Nat.mul_right_comm,
    Format.nearestRank_mul_two_pow (binade_le_mul_one hm), infinityRank_eq]

/-- A power of two that is not above a natural number is not above what this is rounded to. -/
theorem two_pow_le_magnitude {k : Nat} (hk : k ≤ 971) (hm : 2 ^ k ≤ m) :
    2 ^ k * one ≤ (ofNat m).magnitude := by
  have hexponent : unitExponent = 1074 := rfl
  obtain ⟨rank, hlt, hvalue⟩ := Format.exists_magnitude_eq (m := 1) (u := k + unitExponent)
    (by omega) (by omega) (by decide)
  rw [Nat.one_mul, Nat.pow_add] at hvalue
  have hle := Nat.mul_le_mul_right one hm
  have hrank : rank ≤ Format.binary64.nearestRank (m * one) 1 :=
    Format.le_nearestRank (by decide) Nat.one_pos (Nat.le_of_lt hlt)
      (by rw [Nat.mul_one, hvalue]; exact hle)
  rw [← rank_ofNat] at hrank
  exact hvalue ▸ Format.binary64.strictMono_magnitude.monotone hrank

theorem binade_le_magnitude (hm : 0 < m) : Format.binary64.binade ≤ (ofNat m).magnitude := by
  have hone : Format.binary64.binade ≤ 2 ^ 0 * one := binade_le_mul_one (m := 2 ^ 0) Nat.one_pos
  exact Nat.le_trans hone (two_pow_le_magnitude (by decide) hm)

theorem ofNat_zero : ofNat 0 = zero false := by decide +kernel

theorem isZero_ofNat (hm : 0 < m) : (ofNat m).isZero = false :=
  isZero_of_magnitude_pos (Nat.lt_of_lt_of_le Format.binary64.binade_pos (binade_le_magnitude hm))

/-- A natural number that is rounded is finite, or the positive infinity. -/
theorem ofNat_eq_infinity (h : ¬(ofNat m).isFinite = true) : ofNat m = infinity false := by
  have hinfinity := eq_infinity (isNaN_ofNat m) h
  rwa [negative_ofNat] at hinfinity

/-! ## Products and sums -/

theorem mul_of_isFinite {x y : Binary64} (hx : x.isFinite = true) (hy : y.isFinite = true) :
    x.mul y = ofRatio (x.negative != y.negative) (x.magnitude * y.magnitude) one := by
  simp only [mul, isNaN_of_isFinite hx, isNaN_of_isFinite hy, isInfinite_of_isFinite hx,
    isInfinite_of_isFinite hy, Bool.or_self, Bool.false_eq_true, if_false]

theorem infinity_mul {y : Binary64} (hy : y.isFinite = true) (hzero : y.isZero = false) :
    (infinity false).mul y = infinity y.negative := by
  have hinfinity : (infinity false).isNaN = false ∧ (infinity false).isInfinite = true ∧
      (infinity false).isZero = false := by decide
  simp only [mul, hinfinity, isNaN_of_isFinite hy, hzero, Bool.or_self, Bool.true_or,
    Bool.false_eq_true, if_false, if_true]
  rw [show (infinity false).negative = false from rfl, Bool.false_bne]

theorem infinity_add {y : Binary64} (hy : y.isFinite = true) :
    (infinity false).add y = infinity false := by
  have hinfinity : (infinity false).isNaN = false ∧ (infinity false).isInfinite = true := by decide
  simp only [add, hinfinity, isNaN_of_isFinite hy, isInfinite_of_isFinite hy, Bool.or_self,
    Bool.false_and, Bool.false_eq_true, if_false, if_true]

/-- A rounded number times a power of two is the rounded product. -/
theorem ofNat_mul_two_pow (m : Nat) (hb : b ≤ 53) :
    (ofNat m).mul (ofNat (2 ^ b)) = ofNat (m * 2 ^ b) := by
  have hpower : (ofNat (2 ^ b)).HasValue (2 ^ b : Nat) :=
    hasValue_ofInt_of_le (Nat.pow_le_pow_right (by decide) hb)
  have hvalue : (ofNat (2 ^ b)).magnitude = 2 ^ b * one := hpower.magnitude_eq
  rcases Nat.eq_zero_or_pos m with rfl | hm
  · have hzero : (zero false).magnitude = 0 := Format.magnitude_zero _
    rw [Nat.zero_mul, ofNat_zero, mul_of_isFinite (hasValue_zero false).1 hpower.1, hzero,
      Nat.zero_mul, negative_ofNat]
    decide +kernel
  · by_cases hfinite : (ofNat m).isFinite = true
    · rw [mul_of_isFinite hfinite hpower.1]
      refine eq_of_rank ?_ ?_
      · rw [negative_ofRatio, negative_ofNat, negative_ofNat, negative_ofNat]
        rfl
      · have hlt : (ofNat m).rank < Format.binary64.infinityRank :=
          infinityRank_eq ▸ of_decide_eq_true hfinite
        have hrank := Format.nearestRank_magnitude (f := .binary64) (by decide) Nat.one_pos
          (Nat.le_of_lt hlt)
        rw [Nat.mul_one] at hrank
        have hproduct := @Format.nearestRank_mul_right ((ofNat m).magnitude * 2 ^ b) 1 one
          Format.binary64 (Nat.two_pow_pos _)
        rw [Nat.one_mul, Nat.mul_assoc, ← hvalue,
          Format.nearestRank_mul_two_pow (binade_le_magnitude hm), magnitude, hrank] at hproduct
        rw [rank_ofNat_mul_two_pow hm, infinityRank_eq]
        exact hproduct
    · have hplace : (ofNat m).rank = infinityRank := by rw [ofNat_eq_infinity hfinite]; rfl
      rw [ofNat_eq_infinity hfinite,
        infinity_mul hpower.1 (isZero_ofNat (Nat.two_pow_pos b)), negative_ofNat]
      refine eq_of_rank (negative_ofNat _).symm ?_
      rw [rank_ofNat_mul_two_pow hm, hplace]
      exact (Nat.min_eq_left (Nat.le_add_right _ _)).symm

/-- A digit is a small integer. -/
theorem hasValue_digit (hb : b ≤ 53) (hd : d < 2 ^ b) : (ofNat d).HasValue d :=
  hasValue_ofInt_of_le
    (Nat.le_trans (Nat.le_of_lt hd) (Nat.pow_le_pow_right (by decide) hb))

/-- Behind a number of at most 53 bits a digit is not lost, though the sum may be rounded. -/
theorem add_digit_of_lt (hb : b ≤ 53) (hd : d < 2 ^ b) (hm : m < 2 ^ 53) :
    (ofNat (m * 2 ^ b)).add (ofNat d) = ofNat (m * 2 ^ b + d) := by
  have hvalue : (ofNat (m * 2 ^ b)).HasValue (m * 2 ^ b : Nat) :=
    hasValue_ofInt_of_significand (Int.natAbs_natCast _) hm (by omega)
  rw [hvalue.add (hasValue_digit hb hd), negative_ofNat, Bool.false_and, ← Int.natCast_add]
  split
  · rename_i hzero
    rw [Int.natCast_eq_zero.mp hzero, ofNat_zero]
  · rfl

/-- The last bit that is kept of a greater number counts for more than twice a digit. -/
theorem exists_significand (hb : b ≤ 53) (hm : 2 ^ 53 ≤ m) :
    ∃ s k, Format.binary64.binade ≤ s ∧
      (ofNat (m * 2 ^ b)).magnitude = s * 2 ^ (k + b + 1 + unitExponent) := by
  have hleast : 2 ^ (53 + b) * one ≤ (ofNat (m * 2 ^ b)).magnitude := by
    refine two_pow_le_magnitude (by omega) ?_
    rw [Nat.pow_add]
    exact Nat.mul_le_mul_right _ hm
  obtain ⟨e, s, hrank, hlt, hnormal⟩ :=
    Format.binary64.exists_exponent_significand (ofNat (m * 2 ^ b)).rank
  have hvalue : (ofNat (m * 2 ^ b)).magnitude = s * 2 ^ e := by
    rw [magnitude, hrank, Format.magnitude_add (Nat.le_of_lt hlt) hnormal]
  have hsignificand : s < 2 ^ 53 := hlt
  have hpower : 2 ^ (53 + b + unitExponent) < 2 ^ (53 + e) := by
    rw [Nat.pow_add _ _ unitExponent, ← one, Nat.pow_add _ 53 e]
    rw [hvalue] at hleast
    exact Nat.lt_of_le_of_lt hleast
      (Nat.mul_lt_mul_of_pos_right hsignificand (Nat.two_pow_pos e))
  have hexponent := (Nat.pow_lt_pow_iff_right (by decide)).mp hpower
  obtain ⟨k, rfl⟩ : ∃ k, e = k + b + 1 + unitExponent := ⟨e - (b + 1 + unitExponent), by omega⟩
  exact ⟨s, k, hnormal.resolve_left (by omega), hvalue⟩

/-- Behind a greater number a digit is less than half of the last bit, and is lost. -/
theorem add_digit_of_le (hb : b ≤ 53) (hd : d < 2 ^ b) (hm : 2 ^ 53 ≤ m) :
    (ofNat (m * 2 ^ b)).add (ofNat d) = ofNat (m * 2 ^ b) := by
  have hdigit := hasValue_digit hb hd
  by_cases hfinite : (ofNat (m * 2 ^ b)).isFinite = true
  · have hplace : (ofNat (m * 2 ^ b)).rank < Format.binary64.infinityRank :=
      infinityRank_eq ▸ of_decide_eq_true hfinite
    obtain ⟨s, k, hsignificand, hvalue⟩ := exists_significand hb hm
    have hinteger : (ofNat (m * 2 ^ b)).HasValue (s * 2 ^ (k + b + 1) : Nat) := by
      refine ⟨hfinite, ?_⟩
      rw [scaled, negative_ofNat, if_neg Bool.false_ne_true, hvalue, Nat.pow_add _ _ unitExponent,
        ← Nat.mul_assoc, ← one, Int.natCast_mul]
    have hbelow : d * one < 2 ^ (k + b + unitExponent) := by
      rw [Nat.pow_add]
      refine Nat.mul_lt_mul_of_pos_right (Nat.lt_of_lt_of_le hd ?_) (Nat.two_pow_pos _)
      exact Nat.pow_le_pow_right (by decide) (by omega)
    have hdouble : 2 * s * 2 ^ (k + b + unitExponent) = s * 2 ^ (k + b + 1 + unitExponent) := by
      rw [Nat.mul_comm 2 s, Nat.mul_assoc, ← Nat.pow_succ']
      congr 2
    have hkept : Format.binary64.nearestRank (s * 2 ^ (k + b + 1 + unitExponent)) 1 =
        (ofNat (m * 2 ^ b)).rank := by
      have hrank := Format.nearestRank_magnitude (f := .binary64) (by decide) Nat.one_pos
        (Nat.le_of_lt hplace)
      rwa [Nat.mul_one, ← magnitude, hvalue] at hrank
    -- The number is a value of the format, and so is not halfway to the next one.
    have hnot : ¬Format.binary64.Halfway (s * 2 ^ (k + b + 1 + unitExponent))
        (ofNat (m * 2 ^ b)).rank := by
      have habove := Format.binary64.strictMono_magnitude
        (Nat.lt_add_one (ofNat (m * 2 ^ b)).rank)
      rw [← magnitude, hvalue] at habove
      rw [Format.Halfway, ← magnitude, hvalue]
      omega
    have hsame := Format.nearestRank_add_eq_iff (f := .binary64) (n := 2 * s) (by decide)
      (Nat.mul_le_mul_left 2 hsignificand) hbelow
    rw [hdouble, hkept] at hsame
    have hsum := hsame.mpr fun h => hnot h.2.1
    have hpositive : 0 < s * 2 ^ (k + b + 1) :=
      Nat.mul_pos (Nat.lt_of_lt_of_le Format.binary64.binade_pos hsignificand)
        (Nat.two_pow_pos _)
    rw [hinteger.add hdigit, ← Int.natCast_add, if_neg (by omega)]
    refine eq_of_rank ((negative_ofNat _).trans (negative_ofNat _).symm) ?_
    rw [← ofNat, rank_ofNat, Nat.add_mul, ← hsum, Nat.pow_add _ _ unitExponent, ← one,
      ← Nat.mul_assoc]
  · rw [ofNat_eq_infinity hfinite, infinity_add hdigit.1]

/-! ## Digits -/

/-- One digit more, with the given base. Once the integer has more than 53 bits, zeros are taken
for the digits. -/
def keepDigit (base n d : Nat) : Nat := if n < 2 ^ 53 then n * base + d else n * base

/-- The integer of a sequence of digits with zeros for those behind the first 53 bits. -/
def kept (base : Nat) (values : List Nat) : Nat := values.foldl (keepDigit base) 0

/-- A digit more is the nearest number to the integer with the digit. -/
theorem appendDigit_ofNat (hb : b ≤ 53) (hd : d < 2 ^ b) (m : Nat) :
    appendDigit (2 ^ b) (ofNat m) d = ofNat (keepDigit (2 ^ b) m d) := by
  rw [appendDigit, ofNat_mul_two_pow m hb, keepDigit]
  split
  · rename_i hlt
    exact add_digit_of_lt hb hd hlt
  · rename_i hle
    exact add_digit_of_le hb hd (Nat.not_lt.mp hle)

/-- Rounding at every digit comes to rounding once, with zeros for the digits that are lost. -/
theorem foldl_appendDigit (hb : b ≤ 53) {values : List Nat} (hvalues : ∀ d ∈ values, d < 2 ^ b)
    (m : Nat) : values.foldl (appendDigit (2 ^ b)) (ofNat m) =
      ofNat (values.foldl (keepDigit (2 ^ b)) m) := by
  induction values generalizing m with
  | nil => rfl
  | cons d values ih =>
    obtain ⟨hd, hvalues⟩ := List.forall_mem_cons.mp hvalues
    rw [List.foldl_cons, List.foldl_cons, appendDigit_ofNat hb hd, ih hvalues]

/-- Zeros are taken for all digits behind a number of more than 53 bits. -/
theorem foldl_keepDigit_of_le (hm : 2 ^ 53 ≤ m) (values : List Nat) :
    values.foldl (keepDigit (2 ^ b)) m = m * 2 ^ (b * values.length) := by
  induction values generalizing m with
  | nil => rw [List.length_nil, Nat.mul_zero, Nat.pow_zero, Nat.mul_one]; rfl
  | cons d values ih =>
    have hle : m ≤ m * 2 ^ b := Nat.le_mul_of_pos_right m (Nat.two_pow_pos b)
    rw [List.foldl_cons, keepDigit, if_neg (Nat.not_lt.mpr hm), ih (Nat.le_trans hm hle),
      Nat.mul_assoc, ← Nat.pow_add, List.length_cons, Nat.mul_succ, Nat.add_comm b]

/-- The digits that are kept are followed by zeros, in the place of the digits that are not. -/
theorem exists_kept (hb : 0 < b) {values : List Nat} (hvalues : ∀ d ∈ values, d < 2 ^ b)
    (m : Nat) :
    ∃ n k t, values.foldl (keepDigit (2 ^ b)) m = n * 2 ^ k ∧
      m * (2 ^ b) ^ values.length + Nat.ofDigits (2 ^ b) values.reverse = n * 2 ^ k + t ∧
      t < 2 ^ k ∧ (k = 0 ∨ 2 ^ 53 ≤ n) := by
  induction values generalizing m with
  | nil => exact ⟨m, 0, 0, (Nat.mul_one m).symm, by simp, Nat.one_pos, .inl rfl⟩
  | cons d values ih =>
    by_cases hm : m < 2 ^ 53
    · obtain ⟨n, k, t, hkept, hvalue, ht, hk⟩ :=
        ih (List.forall_mem_cons.mp hvalues).2 (m * 2 ^ b + d)
      refine ⟨n, k, t, ?_, ?_, ht, hk⟩
      · rw [List.foldl_cons, keepDigit, if_pos hm, hkept]
      · rw [← hvalue, Nat.ofDigits_reverse_cons, List.length_cons]
        ring
    · rw [Nat.not_lt] at hm
      refine ⟨m, b * (d :: values).length, Nat.ofDigits (2 ^ b) (d :: values).reverse,
        foldl_keepDigit_of_le hm _, by rw [Nat.pow_mul], ?_, .inr hm⟩
      have hlt := Nat.ofDigits_lt_base_pow_length (Nat.one_lt_two_pow (Nat.ne_of_gt hb))
        (l := (d :: values).reverse) fun x hx => hvalues x (List.mem_reverse.mp hx)
      rwa [List.length_reverse, ← Nat.pow_mul] at hlt

/-- What is nearest to the integer with the zeros is nearest to the integer with the digits as well,
unless it is finite and below a tie. -/
theorem ofNat_kept_eq_iff (hb : 0 < b) {values : List Nat} (hvalues : ∀ d ∈ values, d < 2 ^ b) :
    ofNat (kept (2 ^ b) values) = ofNat (Nat.ofDigits (2 ^ b) values.reverse) ↔
      ¬((ofNat (kept (2 ^ b) values)).isFinite = true ∧
        Format.binary64.Halfway (kept (2 ^ b) values * one) (ofNat (kept (2 ^ b) values)).rank ∧
        kept (2 ^ b) values < Nat.ofDigits (2 ^ b) values.reverse) := by
  obtain ⟨n, k, t, hkept, hvalue, ht, hk⟩ := exists_kept hb hvalues 0
  rw [Nat.zero_mul, Nat.zero_add] at hvalue
  rw [kept, hkept, hvalue]
  rcases Nat.eq_zero_or_pos t with rfl | hpositive
  · exact iff_of_true rfl fun h => Nat.lt_irrefl _ h.2.2
  · have hlarge : 2 ^ 53 ≤ n := hk.resolve_left fun hzero => by
      rw [hzero, Nat.pow_zero] at ht
      omega
    have hunit : n * 2 ^ k * one = n * 2 ^ (k + unitExponent) := by
      rw [Nat.pow_add, ← one, Nat.mul_assoc]
    have htail : t * one < 2 ^ (k + unitExponent) := by
      rw [Nat.pow_add, ← one]
      exact Nat.mul_lt_mul_of_pos_right ht (Nat.two_pow_pos _)
    have hsame := Format.nearestRank_add_eq_iff (f := .binary64) (n := n) (by decide) hlarge htail
    have hranks : ofNat (n * 2 ^ k) = ofNat (n * 2 ^ k + t) ↔
        (ofNat (n * 2 ^ k + t)).rank = (ofNat (n * 2 ^ k)).rank :=
      ⟨fun h => by rw [h], fun h => eq_of_rank (by rw [negative_ofNat, negative_ofNat]) h.symm⟩
    have hlost : 0 < t * one ↔ n * 2 ^ k < n * 2 ^ k + t :=
      iff_of_true (Nat.mul_pos hpositive (Nat.two_pow_pos _)) (Nat.lt_add_of_pos_right hpositive)
    rw [← hunit, ← Nat.add_mul, ← rank_ofNat, ← rank_ofNat, ← infinityRank_eq, hlost] at hsame
    rw [hranks, hsame, isFinite, decide_eq_true_eq]

/-! ## Texts -/

/-- The letters behind a zero that announce the base of a literal. -/
def bases : List (Char × Nat) :=
  [('x', 16), ('X', 16), ('o', 8), ('O', 8), ('b', 2), ('B', 2)]

/-- The value of a digit, in either case: its place among the digits. -/
def digitPlace (c : Char) : Nat := Text.hexDigits.idxOf c.toLower

/-- The character is a digit of the base. -/
def IsDigit (base : Nat) (c : Char) : Prop := c.toLower ∈ Text.hexDigits ∧ digitPlace c < base

instance (base : Nat) (c : Char) : Decidable (IsDigit base c) :=
  inferInstanceAs (Decidable (_ ∧ _))

theorem all_isDigit_iff {base : Nat} {digits : List Char} :
    digits.all (decide <| IsDigit base ·) = true ↔ ∀ c ∈ digits, IsDigit base c := by
  simp only [List.all_eq_true, decide_eq_true_eq]

/-- The text is a literal with the given base and values of digits. -/
inductive IsLiteral : List Char → Nat → List Nat → Prop where
  | mk {letter : Char} {base : Nat} {digits : List Char} (hbase : (letter, base) ∈ bases)
    (hne : digits ≠ []) (hdigits : ∀ c ∈ digits, IsDigit base c) :
    IsLiteral ('0' :: letter :: digits) base (digits.map digitPlace)

theorem IsDigit.digitIn?_eq {base : Nat} {c : Char} (h : IsDigit base c) :
    Text.digitIn? base c = some (digitPlace c) := by
  rw [Text.digitIn?, Text.digitValue?_eq_some_iff.mpr ⟨h.1, rfl⟩]
  exact Option.filter_some_pos (decide_eq_true h.2)

theorem ofRadixDigits_eq {base : Nat} {digits : List Char} (hne : digits ≠ [])
    (h : ∀ c ∈ digits, IsDigit base c) : ofRadixDigits base digits =
      (digits.map digitPlace).foldl (appendDigit base) (zero false) := by
  have hvalues : digits.mapM (Text.digitIn? base) = some (digits.map digitPlace) := by
    clear hne
    induction digits with
    | nil => rfl
    | cons c digits ih =>
      obtain ⟨hc, hdigits⟩ := List.forall_mem_cons.mp h
      rw [List.mapM_cons, hc.digitIn?_eq, ih hdigits]
      rfl
  rw [ofRadixDigits, if_neg (by simpa using hne), hvalues]

theorem IsLiteral.lt {text : List Char} {base : Nat} {values : List Nat}
    (h : IsLiteral text base values) : ∀ d ∈ values, d < base := by
  obtain ⟨-, -, hdigits⟩ := h
  intro d hd
  obtain ⟨c, hc, rfl⟩ := List.mem_map.mp hd
  exact (hdigits c hc).2

/-- The bases are powers of two. -/
theorem IsLiteral.exists_power {text : List Char} {base : Nat} {values : List Nat}
    (h : IsLiteral text base values) : ∃ b, 0 < b ∧ b ≤ 53 ∧ base = 2 ^ b := by
  obtain ⟨hbase, -, -⟩ := h
  have every : ∀ entry ∈ bases, ∃ b ∈ [1, 3, 4], entry.2 = 2 ^ b := by decide
  obtain ⟨b, hb, hpower⟩ := every _ hbase
  have hbounds : ∀ b ∈ [1, 3, 4], 0 < b ∧ b ≤ 53 := by decide
  exact ⟨b, (hbounds b hb).1, (hbounds b hb).2, hpower⟩

theorem IsLiteral.ofTrimmed_eq {text : List Char} {base : Nat} {values : List Nat}
    (h : IsLiteral text base values) :
    ofTrimmed text = values.foldl (appendDigit base) (zero false) := by
  obtain ⟨hbase, hne, hdigits⟩ := h
  rw [← ofRadixDigits_eq hne hdigits]
  simp only [bases, List.mem_cons, Prod.mk.injEq, List.not_mem_nil, or_false] at hbase
  rcases hbase with ⟨rfl, rfl⟩ | ⟨rfl, rfl⟩ | ⟨rfl, rfl⟩ | ⟨rfl, rfl⟩ | ⟨rfl, rfl⟩ |
    ⟨rfl, rfl⟩ <;> rfl

/-- A literal is read as the number that is nearest to its integer with zeros for the digits behind
the first 53 bits. That is the number nearest to the integer itself, unless it is finite, the
integer with the zeros is halfway between it and the next greater number, and one of the digits is
not zero. -/
theorem ofText_literal {text : String} {base : Nat} {values : List Nat}
    (h : IsLiteral (Text.trim Text.isBlankOrMark text.toList) base values) :
    (ofText text).IsNearestTo (kept base values) ∧
      ((ofText text).IsNearestTo (Nat.ofDigits base values.reverse) ↔
        ¬((ofText text).isFinite = true ∧
          Format.binary64.Halfway (kept base values * one) (ofText text).rank ∧
          kept base values < Nat.ofDigits base values.reverse)) := by
  have hvalues := h.lt
  obtain ⟨b, hpositive, hb, rfl⟩ := h.exists_power
  have hread : ofText text = ofNat (kept (2 ^ b) values) := by
    rw [ofText, h.ofTrimmed_eq, ← ofNat_zero, foldl_appendDigit hb hvalues, kept]
  rw [hread, isNearestTo_iff, isNearestTo_iff]
  exact ⟨rfl, ofNat_kept_eq_iff hpositive hvalues⟩

/-- The last two digits are lost, but the number is rounded up whatever they are. -/
theorem ofText_literal_long :
    IsLiteral (Text.trim Text.isBlankOrMark " 0X20000000000003fE\n".toList) 16
        [2, 0, 0, 0, 0, 0, 0, 0, 0, 0, 0, 0, 0, 3, 15, 14] ∧
      (ofText " 0X20000000000003fE\n").IsNearestTo 0x20000000000003fe := by
  have hliteral : IsLiteral (Text.trim Text.isBlankOrMark " 0X20000000000003fE\n".toList) 16
      [2, 0, 0, 0, 0, 0, 0, 0, 0, 0, 0, 0, 0, 3, 15, 14] :=
    @IsLiteral.mk 'X' 16 "20000000000003fE".toList (by decide) (by decide)
      (all_isDigit_iff.mp (by decide))
  exact ⟨hliteral, (ofText_literal hliteral).2.mpr (by decide +kernel)⟩

/-- The first 54 bits of the literal are a tie, which goes to the lower number, though the last
digit puts the literal nearer to the greater one. -/
theorem ofText_literal_tie :
    IsLiteral (Text.trim Text.isBlankOrMark "0x200000000000011".toList) 16
        [2, 0, 0, 0, 0, 0, 0, 0, 0, 0, 0, 0, 0, 1, 1] ∧
      Nat.ofDigits 16 [2, 0, 0, 0, 0, 0, 0, 0, 0, 0, 0, 0, 0, 1, 1].reverse = 0x200000000000011 ∧
      ofText "0x200000000000011" = ofNat 0x200000000000000 ∧
      ¬(ofText "0x200000000000011").IsNearestTo 0x200000000000011 := by
  refine ⟨@IsLiteral.mk 'x' 16 "200000000000011".toList (by decide) (by decide)
    (all_isDigit_iff.mp (by decide)), by decide, by decide +kernel, ?_⟩
  rw [isNearestTo_iff]
  decide +kernel

end Binary64

end Octets
