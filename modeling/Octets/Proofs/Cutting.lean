import Octets.Proofs.Outcome
import Octets.Proofs.Unicode
import Octets.Text.Cutting

/-!
# Cutting UTF-8 text

Looking backward for the beginning of a character finds the end of the longest initial part of a
text that fits (`cut_encode`). The search never goes below zero.
-/

namespace Octets.Text.Utf8

/-- A byte that continues a character. -/
def Continues (b : UInt8) : Prop := 0x80 ≤ b ∧ b < 0xC0

theorem continues_continuation (six : Nat) : Continues (continuation six) := by
  have hlt : 0x80 + six % 64 < 256 := by omega
  unfold Continues continuation
  rw [UInt8.le_iff_toNat_le, UInt8.lt_iff_toNat_lt, UInt8.toNat_ofNat_of_lt' hlt]
  have h80 : (0x80 : UInt8).toNat = 0x80 := rfl
  have hC0 : (0xC0 : UInt8).toNat = 0xC0 := rfl
  omega

/-- Where a byte below `0x80` or from `0xC0` on stands in the text, a character begins. -/
theorem not_continues_ofNat {n : Nat} (hlt : n < 256) (h : n < 0x80 ∨ 0xC0 ≤ n) :
    ¬Continues (UInt8.ofNat n) := by
  unfold Continues
  rw [UInt8.le_iff_toNat_le, UInt8.lt_iff_toNat_lt, UInt8.toNat_ofNat_of_lt' hlt]
  have h80 : (0x80 : UInt8).toNat = 0x80 := rfl
  have hC0 : (0xC0 : UInt8).toNat = 0xC0 := rfl
  omega

/-- The first byte of a character continues none, and all others do. -/
theorem encodeChar_shape (c : Char) :
    ∃ b rest, encodeChar c = b :: rest ∧ ¬Continues b ∧ ∀ x ∈ rest, Continues x := by
  have hvalid := toNat_isValid c
  -- One case for each number of bytes; the first byte tells it.
  unfold encodeChar
  by_cases h1 : c.toNat < 0x80
  · refine ⟨UInt8.ofNat c.toNat, [], by simp only [if_pos h1], ?_, by simp⟩
    exact not_continues_ofNat (by omega) (.inl h1)
  · by_cases h2 : c.toNat < 0x800
    · refine ⟨UInt8.ofNat (0xC0 + c.toNat / 64), [continuation c.toNat],
        by simp only [if_neg h1, if_pos h2], ?_, by simp [continues_continuation]⟩
      exact not_continues_ofNat (by omega) (.inr (by omega))
    · by_cases h3 : c.toNat < 0x10000
      · refine ⟨UInt8.ofNat (0xE0 + c.toNat / 4096),
          [continuation (c.toNat / 64), continuation c.toNat],
          by simp only [if_neg h1, if_neg h2, if_pos h3], ?_, by simp [continues_continuation]⟩
        exact not_continues_ofNat (by omega) (.inr (by omega))
      · refine ⟨UInt8.ofNat (0xF0 + c.toNat / 262144),
          [continuation (c.toNat / 4096), continuation (c.toNat / 64), continuation c.toNat],
          by simp only [if_neg h1, if_neg h2, if_neg h3], ?_, by simp [continues_continuation]⟩
        exact not_continues_ofNat (by omega) (.inr (by omega))

theorem isBoundary_iff_of_getElem? {bytes : Bytes} {i : Nat} {b : UInt8}
    (h : bytes[i]? = some b) : isBoundary bytes i = true ↔ i = 0 ∨ ¬Continues b := by
  unfold isBoundary Continues
  rw [h]
  simp only [Bool.or_eq_true, beq_iff_eq, decide_eq_true_eq, or_assoc, not_and, UInt8.not_lt]
  constructor
  · rintro (h | h | h)
    · exact .inl h
    · exact .inr fun hle => absurd h (UInt8.not_lt.mpr hle)
    · exact .inr fun _ => h
  · rintro (h | h)
    · exact .inl h
    · by_cases hlt : b < 0x80
      · exact .inr (.inl hlt)
      · exact .inr (.inr (h (UInt8.not_lt.mp hlt)))

/-! ## The characters that fit -/

/-- Either the whole text fits, or there is a first character that does not. -/
theorem fitting_cases (limit : Nat) (text : List Char) :
    (fitting limit text = text ∧ byteLength text ≤ limit) ∨
      ∃ c rest, text = fitting limit text ++ c :: rest ∧
        byteLength (fitting limit text) ≤ limit ∧
        limit < byteLength (fitting limit text) + width c := by
  induction text generalizing limit with
  | nil => exact .inl ⟨rfl, Nat.zero_le _⟩
  | cons c rest ih =>
    by_cases hfit : width c ≤ limit
    · simp only [fitting, if_pos hfit, byteLength]
      rcases ih (limit - width c) with ⟨heq, hle⟩ | ⟨d, rest', heq, hle, hlt⟩
      · exact .inl ⟨by rw [heq], by omega⟩
      · refine .inr ⟨d, rest', ?_, by omega, by omega⟩
        rw [List.cons_append, ← heq]
    · simp only [fitting, if_neg hfit, byteLength]
      exact .inr ⟨c, rest, rfl, Nat.zero_le _, by omega⟩

/-- The last boundary is found when it is one and none lies after it. -/
theorem boundaryUpTo_eq_ok {bytes : Bytes} {p limit : Nat} (hp : isBoundary bytes p = true)
    (hle : p ≤ limit) (hnone : ∀ i, p < i → i ≤ limit → isBoundary bytes i = false) :
    boundaryUpTo bytes limit = .ok p := by
  induction limit with
  | zero =>
    have : p = 0 := by omega
    subst this
    simp [boundaryUpTo, hp, pure, Except.pure]
  | succ limit ih =>
    by_cases heq : p = limit + 1
    · subst heq
      simp [boundaryUpTo, hp, pure, Except.pure]
    · rw [boundaryUpTo, hnone (limit + 1) (by omega) (Nat.le_refl _)]
      exact ih (by omega) fun i hlt hi => hnone i hlt (by omega)

/-- In an encoded text a character begins after every initial part, and none begins inside the
next one. -/
theorem isBoundary_encode (a : List Char) (c : Char) (rest : List Char) {i : Nat}
    (hlow : byteLength a ≤ i) (hhigh : i < byteLength a + width c) :
    isBoundary (encode (a ++ c :: rest)) i = true ↔ i = byteLength a := by
  obtain ⟨b, tail, hc, hb, htail⟩ := encodeChar_shape c
  have hlen : tail.length + 1 = width c := by
    rw [← length_encodeChar, hc, List.length_cons]
  -- The byte at `i` is one of the bytes of `c`.
  have hget : (encode (a ++ c :: rest))[i]? = (b :: tail)[i - byteLength a]? := by
    rw [encode_append, encode_cons, hc, List.getElem?_append_right (by simpa using hlow),
      length_encode, List.getElem?_append_left (by rw [List.length_cons]; omega)]
  by_cases hi : i = byteLength a
  · subst hi
    rw [Nat.sub_self, List.getElem?_cons_zero] at hget
    simp [isBoundary_iff_of_getElem? hget, hb]
  · obtain ⟨j, hj⟩ : ∃ j, i - byteLength a = j + 1 := ⟨i - byteLength a - 1, by omega⟩
    have hjlt : j < tail.length := by omega
    rw [hj, List.getElem?_cons_succ, List.getElem?_eq_getElem hjlt] at hget
    have hcont := htail _ (List.getElem_mem hjlt)
    have hne : i ≠ 0 := by omega
    simp [isBoundary_iff_of_getElem? hget, hcont, hne, hi]

/-- Cutting an encoded text keeps the characters that fit. -/
theorem cut_encode (text : List Char) (limit : Nat) :
    cut (encode text) limit = .ok (byteLength (fitting limit text)) := by
  unfold cut
  rw [length_encode]
  rcases fitting_cases limit text with ⟨heq, hle⟩ | ⟨c, rest, heq, hle, hlt⟩
  · rw [if_pos hle, heq]
    rfl
  · have hlong : ¬byteLength text ≤ limit := by
      have hlen := congrArg byteLength heq
      rw [← length_encode, ← length_encode, encode_append, encode_cons] at hlen
      simp only [List.length_append, length_encode, length_encodeChar] at hlen
      omega
    rw [if_neg hlong]
    generalize fitting limit text = a at *
    subst heq
    -- The limit is inside of `c`, and no boundary is.
    refine boundaryUpTo_eq_ok ?_ hle fun i hi hlimit => ?_
    · exact (isBoundary_encode a c rest (Nat.le_refl _) (by omega)).mpr rfl
    · rw [Bool.eq_false_iff, ne_eq, isBoundary_encode a c rest (by omega) (by omega)]
      omega

/-- The characters that fit are the beginning of the encoded text. -/
theorem take_encode_fitting (text : List Char) (limit : Nat) :
    (encode text).take (byteLength (fitting limit text)) = encode (fitting limit text) := by
  rw [← length_encode]
  rcases fitting_cases limit text with ⟨heq, -⟩ | ⟨c, rest, heq, -, -⟩
  · rw [heq, List.take_length]
  · conv => lhs; rw [heq]
    rw [encode_append, ← heq, List.take_left]

/-- There are as many bytes as the characters that fit take up. -/
theorem byteLength_fitting_le_byteLength (text : List Char) (limit : Nat) :
    byteLength (fitting limit text) ≤ byteLength text := by
  have h := congrArg List.length (take_encode_fitting text limit)
  simp only [List.length_take, length_encode] at h
  omega

end Octets.Text.Utf8
