import Mathlib.Tactic.IntervalCases
import Octets.Text.Utf16
import Octets.Text.Utf8

/-!
# Reading back encoded text

Both Unicode encodings are read back character by character: with no unfinished character
pending, the bytes (or the units) of a character followed by anything are read as that character
followed by what the rest is read as. So a text is read back whole.

* `Utf8.pieces_encode`, `Utf8.decode_encode`: the encoded form of a text has no damaged part, and
  is read as the text.
* `Utf16.ofUnits_units`, `Utf16.decode_encode`: the same for units and their bytes.
-/

namespace Octets.Text

/-- The number of a character is in the code space and is not that of a surrogate. -/
theorem toNat_isValid (c : Char) :
    c.toNat < 0xD800 ∨ (0xDFFF < c.toNat ∧ c.toNat < 0x110000) := c.valid

/-- Every such number is that of a character. -/
theorem toNat_ofNat {n : Nat} (h : n < 0xD800 ∨ (0xDFFF < n ∧ n < 0x110000)) :
    (Char.ofNat n).toNat = n := by
  rw [Char.ofNat, dif_pos h]
  rfl

/-! ## UTF-8 -/

namespace Utf8

/-- What a continuing byte adds to the code. -/
theorem toNat_continuation (six : Nat) : (continuation six).toNat = 0x80 + six % 64 :=
  UInt8.toNat_ofNat_of_lt' (show 0x80 + six % 64 < 256 by omega)

/-- A byte in the range that is due, with more bytes to come. -/
theorem step_later {code later six : Nat} {low high : UInt8}
    (hlow : low.toNat ≤ 0x80 + six % 64) (hhigh : 0x80 + six % 64 ≤ high.toNat) :
    step (some ⟨code, later + 1, low, high⟩) (continuation six) =
      ([], some ⟨code * 64 + six % 64, later, 0x80, 0xBF⟩) := by
  have hsix : (continuation six).toNat % 64 = six % 64 := by rw [toNat_continuation]; omega
  simp only [step]
  rw [if_pos (by rw [UInt8.le_iff_toNat_le, UInt8.le_iff_toNat_le, toNat_continuation]
                 exact ⟨hlow, hhigh⟩), hsix]

/-- The last byte of a character, in the range that is due. -/
theorem step_last {code six : Nat} {low high : UInt8}
    (hlow : low.toNat ≤ 0x80 + six % 64) (hhigh : 0x80 + six % 64 ≤ high.toNat) :
    step (some ⟨code, 0, low, high⟩) (continuation six) =
      ([some (Char.ofNat (code * 64 + six % 64))], none) := by
  have hsix : (continuation six).toNat % 64 = six % 64 := by rw [toNat_continuation]; omega
  simp only [step]
  rw [if_pos (by rw [UInt8.le_iff_toNat_le, UInt8.le_iff_toNat_le, toNat_continuation]
                 exact ⟨hlow, hhigh⟩), hsix]

/-- The first byte of a character of one byte. -/
theorem first_of_one {n : Nat} (h : n < 0x80) :
    first (UInt8.ofNat n) = ([some (Char.ofNat n)], none) := by
  have hn : (UInt8.ofNat n).toNat = n := UInt8.toNat_ofNat_of_lt' (show n < 256 by omega)
  unfold first
  rw [if_pos (by rw [UInt8.lt_iff_toNat_lt, hn]; exact h), hn]

/-- The first byte of a character of two bytes. -/
theorem first_of_two {n : Nat} (hlow : 2 ≤ n) (hhigh : n < 0x20) :
    first (UInt8.ofNat (0xC0 + n)) = ([], some ⟨n, 0, 0x80, 0xBF⟩) := by
  interval_cases n <;> rfl

/-- The first byte of a character of three bytes: the range of the second shuts out overlong
forms and surrogates. -/
theorem first_of_three {n : Nat} (h : n < 0x10) :
    first (UInt8.ofNat (0xE0 + n)) =
      ([], some ⟨n, 1, if n = 0 then 0xA0 else 0x80, if n = 0xD then 0x9F else 0xBF⟩) := by
  interval_cases n <;> rfl

/-- The first byte of a character of four bytes: the range of the second shuts out overlong
forms and what lies beyond the last character. -/
theorem first_of_four {n : Nat} (h : n ≤ 4) :
    first (UInt8.ofNat (0xF0 + n)) =
      ([], some ⟨n, 2, if n = 0 then 0x90 else 0x80, if n = 4 then 0x8F else 0xBF⟩) := by
  interval_cases n <;> rfl

/-- Between characters, the bytes of a character are read as that character. -/
theorem piecesFrom_encodeChar (c : Char) (rest : Bytes) :
    piecesFrom none (encodeChar c ++ rest) = some c :: piecesFrom none rest := by
  have hvalid := toNat_isValid c
  have h80 : (0x80 : UInt8).toNat = 0x80 := rfl
  have hBF : (0xBF : UInt8).toNat = 0xBF := rfl
  -- The code that the bytes add up to; one case for each number of bytes.
  unfold encodeChar
  by_cases h1 : c.toNat < 0x80
  · simp only [if_pos h1, List.cons_append, List.nil_append, piecesFrom, step, first_of_one h1,
      Char.ofNat_toNat]
  · by_cases h2 : c.toNat < 0x800
    · have hcode : c.toNat / 64 * 64 + c.toNat % 64 = c.toNat := by omega
      simp only [if_neg h1, if_pos h2, List.cons_append, List.nil_append, piecesFrom]
      rw [show step none (UInt8.ofNat (0xC0 + c.toNat / 64)) = _ from
          first_of_two (by omega) (by omega),
        step_last (by omega) (by omega), hcode, Char.ofNat_toNat]
      rfl
    · by_cases h3 : c.toNat < 0x10000
      · have hcode : (c.toNat / 4096 * 64 + c.toNat / 64 % 64) * 64 + c.toNat % 64 = c.toNat := by
          omega
        simp only [if_neg h1, if_neg h2, if_pos h3, List.cons_append, List.nil_append, piecesFrom]
        rw [show step none (UInt8.ofNat (0xE0 + c.toNat / 4096)) = _ from
            first_of_three (by omega),
          step_later
            (by split
                · rw [show (0xA0 : UInt8).toNat = 0xA0 from rfl]; omega
                · omega)
            (by split
                · rw [show (0x9F : UInt8).toNat = 0x9F from rfl]; omega
                · omega),
          step_last (by omega) (by omega), hcode, Char.ofNat_toNat]
        rfl
      · have hcode : ((c.toNat / 262144 * 64 + c.toNat / 4096 % 64) * 64 + c.toNat / 64 % 64) * 64 +
            c.toNat % 64 = c.toNat := by omega
        simp only [if_neg h1, if_neg h2, if_neg h3, List.cons_append, List.nil_append, piecesFrom]
        rw [show step none (UInt8.ofNat (0xF0 + c.toNat / 262144)) = _ from
            first_of_four (by omega),
          step_later
            (by split
                · rw [show (0x90 : UInt8).toNat = 0x90 from rfl]; omega
                · omega)
            (by split
                · rw [show (0x8F : UInt8).toNat = 0x8F from rfl]; omega
                · omega),
          step_later (by omega) (by omega), step_last (by omega) (by omega), hcode,
          Char.ofNat_toNat]
        rfl

/-- A text is read character by character, whatever follows it. -/
theorem pieces_encode_append (text : List Char) (rest : Bytes) :
    pieces (encode text ++ rest) = text.map some ++ pieces rest := by
  unfold pieces
  induction text with
  | nil => rfl
  | cons c text ih =>
    rw [encode_cons, List.append_assoc, piecesFrom_encodeChar, ih, List.map_cons, List.cons_append]

/-- The encoded form of a text is in one piece for each of its characters, none of them
damaged. -/
theorem pieces_encode (text : List Char) : pieces (encode text) = text.map some := by
  have h := pieces_encode_append text []
  rwa [List.append_nil, show pieces [] = [] from rfl, List.append_nil] at h

/-- The encoded form of a text is read as that text. -/
theorem decode_encode (text : List Char) : decode (encode text) = text := by
  simp [decode, pieces_encode]

end Utf8

/-! ## UTF-16 -/

namespace Utf16

/-- A unit is the first half of a pair by its number. -/
theorem isHigh_iff (u : UInt16) : isHigh u = true ↔ 0xD800 ≤ u.toNat ∧ u.toNat < 0xDC00 := by
  simp only [isHigh, decide_eq_true_eq, UInt16.le_iff_toNat_le, UInt16.lt_iff_toNat_lt]
  rfl

/-- A unit is the second half of a pair by its number. -/
theorem isLow_iff (u : UInt16) : isLow u = true ↔ 0xDC00 ≤ u.toNat ∧ u.toNat < 0xE000 := by
  simp only [isLow, decide_eq_true_eq, UInt16.le_iff_toNat_le, UInt16.lt_iff_toNat_lt]
  rfl

/-- A unit that is not the first half of a pair is read alone, whatever follows it. -/
theorem ofUnits_cons_of_not_isHigh {u : UInt16} (h : isHigh u = false) (rest : List UInt16) :
    ofUnits (u :: rest) = single u :: ofUnits rest := by
  cases rest with
  | nil => rfl
  | cons v rest => simp [ofUnits, h]

/-- The two halves of a pair are read together. -/
theorem ofUnits_cons_cons {u v : UInt16} (hu : isHigh u = true) (hv : isLow v = true)
    (rest : List UInt16) : ofUnits (u :: v :: rest) = joined u v :: ofUnits rest := by
  simp [ofUnits, hu, hv]

/-- The unit of a character that has only one is not half of a pair. -/
theorem single_ofNat_toNat {c : Char} (h : c.toNat < 0x10000) :
    isHigh (UInt16.ofNat c.toNat) = false ∧ single (UInt16.ofNat c.toNat) = c := by
  have hvalid := toNat_isValid c
  have hn : (UInt16.ofNat c.toNat).toNat = c.toNat := UInt16.toNat_ofNat_of_lt' h
  have hhigh : isHigh (UInt16.ofNat c.toNat) = false := by
    rw [← Bool.not_eq_true, isHigh_iff, hn]; omega
  have hlow : isLow (UInt16.ofNat c.toNat) = false := by
    rw [← Bool.not_eq_true, isLow_iff, hn]; omega
  refine ⟨hhigh, ?_⟩
  simp only [single, hhigh, hlow, Bool.or_self, Bool.false_eq_true, if_false, hn, Char.ofNat_toNat]

/-- The units of a character are read as that character. -/
theorem ofUnits_charUnits (c : Char) (rest : List UInt16) :
    ofUnits (charUnits c ++ rest) = c :: ofUnits rest := by
  unfold charUnits
  by_cases h : c.toNat < 0x10000
  · obtain ⟨hhigh, hsingle⟩ := single_ofNat_toNat h
    rw [if_pos h, List.cons_append, List.nil_append, ofUnits_cons_of_not_isHigh hhigh, hsingle]
  · have hvalid := toNat_isValid c
    have hhigh : (UInt16.ofNat (0xD800 + (c.toNat - 0x10000) / 1024)).toNat =
        0xD800 + (c.toNat - 0x10000) / 1024 :=
      UInt16.toNat_ofNat_of_lt' (show _ < 65536 by omega)
    have hlow : (UInt16.ofNat (0xDC00 + (c.toNat - 0x10000) % 1024)).toNat =
        0xDC00 + (c.toNat - 0x10000) % 1024 :=
      UInt16.toNat_ofNat_of_lt' (show _ < 65536 by omega)
    have hcode : 0x10000 + (0xD800 + (c.toNat - 0x10000) / 1024 - 0xD800) * 1024 +
        (0xDC00 + (c.toNat - 0x10000) % 1024 - 0xDC00) = c.toNat := by omega
    rw [if_neg h, List.cons_append, List.cons_append, List.nil_append,
      ofUnits_cons_cons ((isHigh_iff _).mpr (by omega)) ((isLow_iff _).mpr (by omega)),
      joined, hhigh, hlow, hcode, Char.ofNat_toNat]

/-- The units of a text are read as that text. -/
theorem ofUnits_units (text : List Char) : ofUnits (units text) = text := by
  induction text with
  | nil => rfl
  | cons c rest ih =>
    have split : units (c :: rest) = charUnits c ++ units rest := rfl
    rw [split, ofUnits_charUnits, ih]

/-- The encoded form of a text is read as that text. -/
theorem decode_encode (text : List Char) : decode (encode text) = text := by
  rw [decode, encode, unitsOfBytes_unitBytes, ofUnits_units]

end Utf16

end Octets.Text
