import Mathlib.Data.List.TakeWhile
import Octets.Number.Text
import Octets.Proofs.Shortest
import Octets.Proofs.Spelling

/-!
# Numbers read back from their text

The text of a number that is neither zero nor infinite is its shortest decimal, behind a minus if
the number is negative. A decimal is written in one of four ways, by where its point is: in front
of all digits, between two of them, behind all of them, or behind the first one with an exponent.
All four are literals of one form, digits with at most one point among them and an exponent at the
end (`Decimal.Written`). The zeros at the end of the coefficient are left out, and written again
where the point is behind them, so that what is read is not the decimal itself but one of its value
(`Decimal.plain_written`, `Decimal.withExponent_written`). That is enough, since the number that is
nearest to it is the same.

No character of such a text is blank, begins a word or announces a base (`Decimal.IsNumeral`), so it
is read as a decimal literal. `Binary64.ofText_text` puts this together for all numbers.
-/

namespace Octets

open Json (Digits Fraction)

/-- A text behind a minus, if it is that of a negative number. -/
def Text.signed (negative : Bool) (body : List Char) : List Char :=
  if negative then '-' :: body else body

namespace Decimal

/-! ## Digits -/

theorem digits_decimal (n : Nat) : Digits (Text.decimal n) :=
  ⟨Nat.toDigits_ne_nil, fun _ hc => Nat.isDigit_of_mem_toDigits (by decide) (by decide) hc⟩

theorem ofDigits_decimal (n : Nat) : ofDigits (Text.decimal n) = n :=
  Nat.ofDigitChars_ten_toDigits

/-- Zeros in front of a sequence of digits do not count. -/
theorem ofDigits_zeros (k : Nat) (digits : List Char) :
    ofDigits (List.replicate k '0' ++ digits) = ofDigits digits := by
  rw [ofDigits, Nat.ofDigitChars_append, Nat.ofDigitChars_replicate_zero, Nat.mul_zero, ofDigits]

theorem ofDigits_append_zeros (digits : List Char) (k : Nat) :
    ofDigits (digits ++ List.replicate k '0') = ofDigits digits * 10 ^ k := by
  rw [ofDigits, Nat.ofDigitChars_append, Nat.ofDigitChars_replicate_zero, Nat.mul_comm, ofDigits]

theorem isDigit_of_mem_zeros {k : Nat} {c : Char} (h : c ∈ List.replicate k '0') :
    c.isDigit = true := by
  rw [List.eq_of_mem_replicate h]
  rfl

theorem digits_append_zeros {digits : List Char} (h : Digits digits) (k : Nat) :
    Digits (digits ++ List.replicate k '0') :=
  ⟨List.append_ne_nil_of_left_ne_nil h.1 _,
    List.forall_mem_append.mpr ⟨h.2, fun _ => isDigit_of_mem_zeros⟩⟩

/-- What is left out at the end of the coefficient are zeros. -/
theorem exists_zeros (d : Decimal) :
    ∃ k, Text.decimal d.coefficient = d.significant ++ List.replicate k '0' ∧
      d.length = d.significant.length + k := by
  generalize hreversed : (Text.decimal d.coefficient).reverse = reversed
  have hzeros : reversed.takeWhile (· == '0') =
      List.replicate (reversed.takeWhile (· == '0')).length '0' :=
    List.eq_replicate_of_mem fun c hc =>
      beq_iff_eq.mp (List.mem_takeWhile_imp (p := (· == '0')) hc)
  have hdigits : Text.decimal d.coefficient =
      d.significant ++ List.replicate (reversed.takeWhile (· == '0')).length '0' := by
    rw [significant, hreversed, ← List.reverse_replicate, ← List.reverse_append, ← hzeros,
      List.takeWhile_append_dropWhile, ← hreversed, List.reverse_reverse]
  exact ⟨_, hdigits, by rw [length, hdigits, List.length_append, List.length_replicate]⟩

/-- The decimal without zeros at the end of the coefficient. -/
def stripped (d : Decimal) : Decimal :=
  ⟨ofDigits d.significant, d.point - d.significant.length⟩

/-- The zeros are put back by a shift. -/
theorem exists_shift (d : Decimal) : ∃ k, d = d.stripped.shift k := by
  obtain ⟨k, hk, hlength⟩ := d.exists_zeros
  have hcoefficient : d.coefficient = ofDigits d.significant * 10 ^ k := by
    rw [← ofDigits_append_zeros, ← hk, ofDigits_decimal]
  have hexponent : d.exponent = d.stripped.exponent - k := by
    have hstripped : d.stripped.exponent = d.point - d.significant.length := rfl
    rw [hstripped, point, hlength]
    omega
  exact ⟨k, by rw [shift, ← hexponent, stripped, ← hcoefficient]⟩

theorem digits_significant {d : Decimal} (h : 0 < d.coefficient) : Digits d.significant := by
  obtain ⟨k, hk, -⟩ := d.exists_zeros
  constructor
  · intro hnil
    -- Zeros alone are the digits of zero.
    have hzero := ofDigits_decimal d.coefficient
    rw [hk, hnil, ofDigits_append_zeros, ofDigits, Nat.ofDigitChars_nil, Nat.zero_mul] at hzero
    omega
  · intro c hc
    refine (digits_decimal d.coefficient).2 c ?_
    rw [hk]
    exact List.mem_append_left _ hc

/-! ## Literals -/

/-- The text of an exponent; none stands for zero. -/
inductive Power : Int → List Char → Prop where
  | none : Power 0 []
  | signed (p : Int) : Power p ('e' :: (if p < 0 then '-' else '+') :: Text.decimal p.natAbs)

/-- The text is a literal that is read as the decimal. -/
inductive Written : Decimal → List Char → Prop where
  | mk {whole fraction point power : List Char} {p : Int} (hwhole : Digits whole)
    (hfraction : Fraction fraction point) (hpower : Power p power) :
    Written ⟨ofDigits (whole ++ fraction), p - fraction.length⟩ (whole ++ (point ++ power))

theorem exponent?_signed (p : Int) :
    exponent? ((if p < 0 then '-' else '+') :: Text.decimal p.natAbs) = some p := by
  obtain ⟨hne, hdigits⟩ := digits_decimal p.natAbs
  have hall : (Text.decimal p.natAbs).all Char.isDigit = true := List.all_eq_true.mpr hdigits
  have hempty : (Text.decimal p.natAbs).isEmpty = false := List.isEmpty_eq_false_iff.mpr hne
  split
  · have hvalue : -(p.natAbs : Int) = p := by omega
    simp only [exponent?, takeSign, hempty, hall, ofDigits_decimal, hvalue, Bool.not_true,
      Bool.or_self, Bool.false_eq_true, if_false, if_true]
  · have hvalue : (p.natAbs : Int) = p := by omega
    simp only [exponent?, takeSign, hempty, hall, ofDigits_decimal, hvalue, Bool.not_true,
      Bool.or_self, Bool.false_eq_true, if_false]

/-- No digit and no point stands where an exponent or the end does. -/
theorem Power.stops {p : Int} {power : List Char} (h : Power p power) :
    ∀ c ∈ power.head?, c.isDigit = false ∧ c ≠ '.' := by
  cases h with
  | none => exact fun c hc => nomatch hc
  | signed p =>
    intro c hc
    obtain rfl := Option.mem_some.mp hc
    decide

theorem takeFraction_append {fraction point power : List Char} {p : Int}
    (hfraction : Fraction fraction point) (hpower : Power p power) :
    takeFraction (point ++ power) = (fraction, power) := by
  cases hfraction with
  | none => cases hpower <;> rfl
  | point digits h =>
    obtain ⟨htake, hdrop⟩ := Json.span_digits h.2 fun c hc => (hpower.stops c hc).1
    rw [List.cons_append, takeFraction, htake, hdrop]

theorem Written.ofLiteral?_eq {d : Decimal} {text : List Char} (h : Written d text) :
    ofLiteral? text = some d := by
  obtain ⟨hwhole, hfraction, hpower⟩ := h
  obtain ⟨htake, hdrop⟩ := Json.span_digits hwhole.2 (hfraction.stops hpower.stops)
  rw [ofLiteral?, htake, hdrop, takeFraction_append hfraction hpower, hwhole.isEmpty]
  cases hpower with
  | none => rfl
  | signed p =>
    simp only [exponent?_signed]
    rfl

/-! ## The text of a decimal -/

variable {d : Decimal}

/-- A literal stands for the value of a decimal if it has the digits of its coefficient, with `k` of
the zeros at the end, and the point at the same place. -/
theorem written_shift (k : Nat) {text whole fraction point power : List Char} {p : Int}
    (htext : text = whole ++ (point ++ power)) (hwhole : Digits whole)
    (hfraction : Fraction fraction point) (hpower : Power p power)
    (hdigits : ofDigits (whole ++ fraction) = ofDigits d.significant * 10 ^ k)
    (hpoint : p - fraction.length = d.point - d.significant.length - k) :
    Written (d.stripped.shift k) text := by
  have h := Written.mk hwhole hfraction hpower
  rw [hdigits, hpoint, ← htext] at h
  exact h

/-- A decimal with places for all digits is one of the same value. -/
theorem plain_written (h : 0 < d.coefficient) : ∃ k, Written (d.stripped.shift k) d.plain := by
  have hdigits := digits_significant h
  have hne := hdigits.1
  have hall := hdigits.2
  unfold plain
  simp only
  split
  · -- The point is in front of all digits, and zeros stand between.
    rename_i hpoint
    have hfraction : Digits (List.replicate (-d.point).toNat '0' ++ d.significant) :=
      ⟨List.append_ne_nil_of_right_ne_nil _ hne,
        List.forall_mem_append.mpr ⟨fun _ => isDigit_of_mem_zeros, hall⟩⟩
    have hwhole : Digits ['0'] := by decide
    refine ⟨0, written_shift 0 ?_ hwhole (.point _ hfraction) .none ?_ ?_⟩
    · rw [List.append_nil]
      rfl
    · rw [Nat.pow_zero, Nat.mul_one]
      exact (ofDigits_zeros 1 _).trans (ofDigits_zeros _ _)
    · rw [List.length_append, List.length_replicate]
      omega
  · split
    · -- The point is between two of the digits.
      rename_i hpoint hlength
      have hwhole : Digits (d.significant.take d.point.toNat) :=
        ⟨by simp only [ne_eq, List.take_eq_nil_iff, hne, or_false]; omega,
          fun c hc => hall c (List.mem_of_mem_take hc)⟩
      have hfraction : Digits (d.significant.drop d.point.toNat) :=
        ⟨by simp only [ne_eq, List.drop_eq_nil_iff]; omega,
          fun c hc => hall c (List.mem_of_mem_drop hc)⟩
      refine ⟨0, written_shift 0 ?_ hwhole (.point _ hfraction) .none ?_ ?_⟩
      · rw [List.append_nil]
      · rw [List.take_append_drop, Nat.pow_zero, Nat.mul_one]
      · rw [List.length_drop]
        omega
    · -- The point is behind all digits, with zeros for the missing ones.
      rename_i hpoint hlength
      have hwhole := digits_append_zeros hdigits (d.point.toNat - d.significant.length)
      refine ⟨d.point.toNat - d.significant.length,
        written_shift _ ?_ hwhole .none .none ?_ ?_⟩
      · rw [List.append_nil, List.append_nil]
      · rw [List.append_nil, ofDigits_append_zeros]
      · rw [List.length_nil]
        omega

/-- A decimal with an exponent is one of the same value. -/
theorem withExponent_written (h : 0 < d.coefficient) :
    ∃ k, Written (d.stripped.shift k) d.withExponent := by
  obtain ⟨hne, hall⟩ := digits_significant h
  have hlength : d.significant.length ≠ 0 := mt List.length_eq_zero_iff.mp hne
  unfold withExponent mantissa
  split
  · exact absurd ‹_› hne
  · rename_i first hdigits
    rw [hdigits] at hall
    refine ⟨0, written_shift 0 rfl ⟨List.cons_ne_nil first [], hall⟩ .none (.signed _) ?_ ?_⟩
    · rw [hdigits, Nat.pow_zero, Nat.mul_one, List.append_nil]
    · rw [hdigits, List.length_nil, List.length_singleton]
      omega
  · rename_i first more hmore hdigits
    obtain ⟨hfirst, hrest⟩ := List.forall_mem_cons.mp (hdigits ▸ hall)
    refine ⟨0, written_shift 0 rfl
      ⟨List.cons_ne_nil first [], List.forall_mem_singleton.mpr hfirst⟩
      (.point more ⟨hmore, hrest⟩) (.signed _) ?_ ?_⟩
    · rw [hdigits, Nat.pow_zero, Nat.mul_one]
      rfl
    · rw [hdigits, List.length_cons]
      omega

/-! ## Characters -/

/-- A character of a decimal literal. -/
def IsNumeral (c : Char) : Prop := c.isDigit = true ∨ c ∈ ['.', 'e', '+', '-']

instance (c : Char) : Decidable (IsNumeral c) := inferInstanceAs (Decidable (_ ∨ _))

theorem IsNumeral.isBlankOrMark_eq {c : Char} (h : IsNumeral c) :
    Text.isBlankOrMark c = false := by
  rcases h with h | h
  · obtain ⟨hlow, hhigh⟩ := Text.toNat_of_isDigit h
    simp only [Text.isBlankOrMark, Text.isBlank, Bool.or_eq_false_iff, Bool.and_eq_false_iff,
      decide_eq_false_iff_not, beq_eq_false_iff_ne]
    omega
  · simp only [List.mem_cons, List.not_mem_nil, or_false] at h
    obtain rfl | rfl | rfl | rfl := h <;> rfl

theorem IsNumeral.toNat_lt {c : Char} (h : IsNumeral c) : c.toNat < 0x80 := by
  rcases h with h | h
  · exact Nat.lt_of_le_of_lt (Text.toNat_of_isDigit h).2 (by decide)
  · simp only [List.mem_cons, List.not_mem_nil, or_false] at h
    obtain rfl | rfl | rfl | rfl := h <;> decide

theorem Power.isNumeral {p : Int} {power : List Char} (h : Power p power) :
    ∀ c ∈ power, IsNumeral c := by
  cases h with
  | none => exact fun c hc => nomatch hc
  | signed p =>
    refine List.forall_mem_cons.mpr ⟨by decide, List.forall_mem_cons.mpr ⟨?_, ?_⟩⟩
    · split <;> decide
    · exact fun c hc => .inl ((digits_decimal _).2 c hc)

theorem isNumeral_fraction {fraction point : List Char} (h : Fraction fraction point) :
    ∀ c ∈ point, IsNumeral c := by
  cases h with
  | none => exact fun c hc => nomatch hc
  | point digits h => exact List.forall_mem_cons.mpr ⟨by decide, fun c hc => .inl (h.2 c hc)⟩

theorem Written.isNumeral {text : List Char} (h : Written d text) : ∀ c ∈ text, IsNumeral c := by
  obtain ⟨hwhole, hfraction, hpower⟩ := h
  exact List.forall_mem_append.mpr ⟨fun c hc => .inl (hwhole.2 c hc),
    List.forall_mem_append.mpr ⟨isNumeral_fraction hfraction, hpower.isNumeral⟩⟩

theorem Written.exists_cons {text : List Char} (h : Written d text) :
    ∃ c more, text = c :: more ∧ c.isDigit = true := by
  obtain ⟨hwhole, -, -⟩ := h
  obtain ⟨c, more, rfl, hc⟩ := hwhole.exists_cons
  exact ⟨c, _, rfl, hc⟩

/-- No sign stands in front. -/
theorem Written.takeSign_eq {text : List Char} (h : Written d text) :
    takeSign text = (false, text) := by
  obtain ⟨c, more, rfl, hc⟩ := h.exists_cons
  have hminus : c ≠ '-' := Json.ne_of_isDigit hc rfl
  have hplus : c ≠ '+' := Json.ne_of_isDigit hc rfl
  simp [takeSign, hminus, hplus]

end Decimal

namespace Binary64

open Decimal

/-- No word and no base is taken for what it is not. -/
theorem ofTrimmed_of_isNumeral {text : List Char} (hne : text ≠ [])
    (h : ∀ c ∈ text, IsNumeral c) : ofTrimmed text = ofDecimalLiteral text := by
  unfold ofTrimmed
  split
  case h_1 => exact absurd rfl hne
  case h_8 =>
    -- The words have letters that no literal has.
    have hword : ∀ word : List Char, 'I' ∈ word → text ≠ word := fun word hword htext =>
      absurd (h 'I' (htext ▸ hword)) (by decide)
    have hinfinity : ¬(text = "Infinity".toList || text = "+Infinity".toList) = true := by
      simp only [Bool.or_eq_true, decide_eq_true_eq, not_or]
      exact ⟨hword _ (by decide), hword _ (by decide)⟩
    have hminus : text ≠ "-Infinity".toList := hword _ (by decide)
    rw [if_neg hinfinity, if_neg hminus]
  -- What is left are the texts whose second character is a letter for a base.
  all_goals exact absurd (h _ (List.mem_cons_of_mem _ List.mem_cons_self)) (by decide)

/-- A literal is read as its number, and so is one behind a minus. -/
theorem ofText_of_written {d : Decimal} {body : List Char} (h : Written d body) (negative : Bool) :
    ofText (String.ofList (Text.signed negative body)) = ofDecimal negative d := by
  have hnumeral : ∀ c ∈ Text.signed negative body, IsNumeral c := by
    cases negative with
    | false => exact h.isNumeral
    | true => exact List.forall_mem_cons.mpr ⟨by decide, h.isNumeral⟩
  obtain ⟨first, more, hbody, -⟩ := h.exists_cons
  have hne : Text.signed negative body ≠ [] := by
    cases negative with
    | false => exact hbody ▸ List.cons_ne_nil first more
    | true => exact List.cons_ne_nil '-' body
  rw [ofText, String.toList_ofList, Text.trim_eq_self, ofTrimmed_of_isNumeral hne hnumeral,
    ofDecimalLiteral]
  · cases negative with
    | false => simp only [Text.signed, Bool.false_eq_true, if_false, h.takeSign_eq, h.ofLiteral?_eq]
    | true => simp only [Text.signed, if_true, takeSign, h.ofLiteral?_eq]
  · exact fun c hc => (hnumeral c (List.mem_of_mem_head? hc)).isBlankOrMark_eq
  · exact fun c hc => (hnumeral c (List.mem_of_mem_getLast? hc)).isBlankOrMark_eq

variable {x : Binary64}

/-- The digits of a number that is neither zero nor infinite. -/
def body (x : Binary64) : List Char :=
  if x.isPlain then x.shortest.plain else x.shortest.withExponent

theorem text_of_isFinite (hfinite : x.isFinite = true) (hzero : x.isZero = false) :
    x.text = String.ofList (Text.signed x.negative x.body) := by
  simp only [text, chars, isNaN_of_isFinite hfinite, isInfinite_of_isFinite hfinite, hzero,
    Bool.false_eq_true, if_false, body, Text.signed]

/-- What is written has the value of the shortest decimal. -/
theorem exists_written (hfinite : x.isFinite = true) (hzero : x.isZero = false) :
    ∃ d, Written d x.body ∧ ofDecimal x.negative d = x := by
  have hpositive := coefficient_shortest_pos hfinite hzero
  have hwritten : ∃ k, Written (x.shortest.stripped.shift k) x.body := by
    unfold body
    split
    · exact plain_written hpositive
    · exact withExponent_written hpositive
  obtain ⟨k, hk⟩ := hwritten
  obtain ⟨j, hj⟩ := x.shortest.exists_shift
  have hvalue := ofDecimal_shortest hfinite hzero
  rw [hj, ofDecimal_shift] at hvalue
  exact ⟨_, hk, by rw [ofDecimal_shift, hvalue]⟩

/-- The text of a number is read as the number; that of both zeros is read as the positive one. -/
theorem ofText_text (x : Binary64) :
    ofText x.text = if x.isNaN then nan else if x.isZero then zero false else x := by
  by_cases hnan : x.isNaN = true
  · have hread : ofText "NaN" = nan := by decide +kernel
    rw [if_pos hnan, text, chars, if_pos hnan, String.ofList_toList, hread]
  · rw [if_neg hnan]
    rw [Bool.not_eq_true] at hnan
    by_cases hfinite : x.isFinite = true
    · by_cases hzero : x.isZero = true
      · have hread : ofText "0" = zero false := by decide +kernel
        have htext : x.text = "0" := by
          simp only [text, chars, hnan, isInfinite_of_isFinite hfinite, hzero,
            Bool.false_eq_true, if_false, if_true]
        rw [if_pos hzero, htext, hread]
      · rw [if_neg hzero]
        rw [Bool.not_eq_true] at hzero
        obtain ⟨d, hwritten, hvalue⟩ := exists_written hfinite hzero
        rw [text_of_isFinite hfinite hzero, ofText_of_written hwritten, hvalue]
    · have hread : ∀ negative, ofText (infinity negative).text = infinity negative := by
        decide +kernel
      have hzero : ∀ negative, (infinity negative).isZero = false := by decide
      rw [eq_infinity hnan hfinite, hzero, hread, if_neg Bool.false_ne_true]

end Binary64

end Octets
