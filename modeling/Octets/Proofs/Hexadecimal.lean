import Mathlib.Order.Bounds.Basic
import Octets.Encoding
import Octets.Proofs.Unicode

/-!
# What hexadecimal text is read as

The bytes of a text are taken in pairs, and reading stops at the first pair that is not two digits.
A character of more than one byte has no digit among its bytes, so that the digits that are read are
the first characters of the text.

A digit is one of sixteen characters, in either case, and its value is its place among them
(`hexDigits`).

* `digitValue?_eq_some_iff` — the value of a digit is its place;
* `Utf8.take_encode_of_lt` — one-byte characters in front of the bytes of a text are its first ones;
* `Hex.paired_iff` — as many pairs are read as stand in front of the bytes, and no more;
* `Hex.encode_decodePairs` — what is read is written as the digits in lower case;
* `Encoding.encode_hex_pairs` — what a text is read as.
-/

namespace Octets

namespace Text

/-! ## Digits -/

/-- The digits, in the order of their values. -/
def hexDigits : List Char := "0123456789abcdef".toList

theorem lt_of_mem_hexDigits {c : Char} (h : c ∈ hexDigits) : c.toNat < 0x80 := by
  have every : hexDigits.all (fun c => decide (c.toNat < 0x80)) = true := by decide
  exact of_decide_eq_true (List.all_eq_true.mp every c h)

/-- A character that is not of one byte has no other case here. -/
theorem toLower_of_le {c : Char} (h : 0x80 ≤ c.toNat) : c.toLower = c := by
  refine dif_neg fun hupper => ?_
  have hle : c.toNat ≤ 0x5A := UInt32.le_iff_toNat_le.mp hupper.2
  omega

/-- The value of a digit is its place among the digits, whatever its case. -/
theorem digitValue?_eq_some_iff {c : Char} {d : Nat} :
    digitValue? c.toNat = some d ↔ c.toLower ∈ hexDigits ∧ d = hexDigits.idxOf c.toLower := by
  have every : ∀ n < 0x80, digitValue? n =
      if (Char.ofNat n).toLower ∈ hexDigits then
        some (hexDigits.idxOf (Char.ofNat n).toLower) else none := by
    decide +kernel
  by_cases hlt : c.toNat < 0x80
  · have hvalue := every c.toNat hlt
    rw [Char.ofNat_toNat] at hvalue
    rw [hvalue, Option.ite_none_right_eq_some, Option.some.injEq, @eq_comm _ d]
  · have hnone : digitValue? c.toNat = none := by
      rw [digitValue?, if_neg (by omega), if_neg (by omega), if_neg (by omega)]
    rw [hnone, toLower_of_le (Nat.not_lt.mp hlt)]
    exact iff_of_false nofun fun h => hlt (lt_of_mem_hexDigits h.1)

/-- A digit is written at its place. -/
theorem lowerDigit_idxOf {c : Char} (h : c ∈ hexDigits) :
    lowerDigit (hexDigits.idxOf c) = c := by
  have every : hexDigits.all (fun c => lowerDigit (hexDigits.idxOf c) == c) = true := by decide
  exact eq_of_beq (List.all_eq_true.mp every c h)

/-! ## One-byte characters -/

namespace Utf8

/-- A character is one byte of its number, or begins with a byte that is not a character. -/
theorem encodeChar_cases (c : Char) :
    (c.toNat < 0x80 ∧ encodeChar c = [UInt8.ofNat c.toNat]) ∨
      ∃ b rest, encodeChar c = b :: rest ∧ 0x80 ≤ b := by
  have hvalid := toNat_isValid c
  have hbyte : ∀ n, 0x80 ≤ n → n < 0x100 → 0x80 ≤ UInt8.ofNat n := by
    intro n hle hlt
    rw [UInt8.le_iff_toNat_le, UInt8.toNat_ofNat_of_lt' hlt]
    exact hle
  unfold encodeChar
  by_cases h1 : c.toNat < 0x80
  · exact .inl ⟨h1, if_pos h1⟩
  · right
    by_cases h2 : c.toNat < 0x800
    · exact ⟨_, _, by rw [if_neg h1, if_pos h2], hbyte _ (by omega) (by omega)⟩
    · by_cases h3 : c.toNat < 0x10000
      · exact ⟨_, _, by rw [if_neg h1, if_neg h2, if_pos h3], hbyte _ (by omega) (by omega)⟩
      · exact ⟨_, _, by rw [if_neg h1, if_neg h2, if_neg h3], hbyte _ (by omega) (by omega)⟩

/-- One-byte characters in front of the bytes of a text are its first characters. -/
theorem take_encode_of_lt {text : List Char} {m : Nat} (hle : m ≤ (encode text).length)
    (h : ∀ b ∈ (encode text).take m, b < 0x80) :
    (∀ c ∈ text.take m, c.toNat < 0x80) ∧
      (encode text).take m = (text.take m).map fun c => UInt8.ofNat c.toNat := by
  induction m generalizing text with
  | zero => exact ⟨by simp, rfl⟩
  | succ m ih =>
    cases text with
    | nil => simp at hle
    | cons c rest =>
      rw [encode_cons] at hle h ⊢
      rcases encodeChar_cases c with ⟨hc, hchar⟩ | ⟨b, more, hchar, hb⟩
      · rw [hchar, List.cons_append, List.nil_append] at hle h ⊢
        rw [List.take_succ_cons, List.forall_mem_cons] at h
        obtain ⟨hchars, hbytes⟩ := ih (Nat.le_of_succ_le_succ hle) h.2
        rw [List.take_succ_cons, List.take_succ_cons, List.forall_mem_cons, List.map_cons, hbytes]
        exact ⟨⟨hc, hchars⟩, rfl⟩
      · rw [hchar, List.cons_append, List.take_succ_cons, List.forall_mem_cons] at h
        exact absurd h.1 (UInt8.not_lt.mpr hb)

end Utf8

/-! ## Pairs -/

namespace Hex

variable {bytes rest : Bytes} {high low : UInt8} {k : Nat}

/-- The character of a byte, in lower case. -/
def lower (b : UInt8) : Char := (Char.ofNat b.toNat).toLower

/-- The value of a byte as a digit. -/
def value (b : UInt8) : Nat := hexDigits.idxOf (lower b)

/-- The first `k` pairs of bytes are digits. -/
def Paired (bytes : Bytes) (k : Nat) : Prop :=
  2 * k ≤ bytes.length ∧ ∀ b ∈ bytes.take (2 * k), lower b ∈ hexDigits

theorem digitValue?_byte {b : UInt8} {d : Nat} :
    digitValue? b.toNat = some d ↔ lower b ∈ hexDigits ∧ d = value b := by
  have hb : b.toNat < 256 := b.toNat_lt
  rw [← toNat_ofNat (n := b.toNat) (.inl (by omega))]
  exact digitValue?_eq_some_iff

/-- A digit is a character of one byte. -/
theorem lt_of_lower_mem {b : UInt8} (h : lower b ∈ hexDigits) : b < 0x80 := by
  by_contra hlt
  have hb : b.toNat < 256 := b.toNat_lt
  have hchar : (Char.ofNat b.toNat).toNat = b.toNat := toNat_ofNat (.inl (by omega))
  have hle : 0x80 ≤ b.toNat := UInt8.le_iff_toNat_le.mp (UInt8.not_lt.mp hlt)
  rw [lower, toLower_of_le (by omega)] at h
  have hascii := lt_of_mem_hexDigits h
  omega

/-- Two digits are a byte. -/
theorem toNat_joined (hhigh : lower high ∈ hexDigits) (hlow : lower low ∈ hexDigits) :
    (UInt8.ofNat (16 * value high + value low)).toNat = 16 * value high + value low := by
  have hh : value high < 16 := List.idxOf_lt_length_of_mem hhigh
  have hl : value low < 16 := List.idxOf_lt_length_of_mem hlow
  exact UInt8.toNat_ofNat_of_lt' (show 16 * value high + value low < 256 by omega)

/-- A byte is written as the digits that it is made of. -/
theorem pair_joined (hhigh : lower high ∈ hexDigits) (hlow : lower low ∈ hexDigits) :
    pair (UInt8.ofNat (16 * value high + value low)) = [lower high, lower low] := by
  have hl : value low < 16 := List.idxOf_lt_length_of_mem hlow
  have hquotient : (16 * value high + value low) / 16 = value high := by omega
  have hremainder : (16 * value high + value low) % 16 = value low := by omega
  rw [pair, toNat_joined hhigh hlow, hquotient, hremainder, value, value, lowerDigit_idxOf hhigh,
    lowerDigit_idxOf hlow]

theorem paired_zero (bytes : Bytes) : Paired bytes 0 := ⟨Nat.zero_le _, by simp⟩

theorem paired_succ_iff :
    Paired (high :: low :: rest) (k + 1) ↔
      (lower high ∈ hexDigits ∧ lower low ∈ hexDigits) ∧ Paired rest k := by
  have hlength : 2 * (k + 1) ≤ (high :: low :: rest).length ↔ 2 * k ≤ rest.length := by
    simp only [List.length_cons]
    omega
  have htake : (high :: low :: rest).take (2 * (k + 1)) = high :: low :: rest.take (2 * k) := rfl
  rw [Paired, Paired, hlength, htake, List.forall_mem_cons, List.forall_mem_cons]
  constructor
  · rintro ⟨hle, hhigh, hlow, hrest⟩
    exact ⟨⟨hhigh, hlow⟩, hle, hrest⟩
  · rintro ⟨⟨hhigh, hlow⟩, hle, hrest⟩
    exact ⟨hle, hhigh, hlow, hrest⟩

/-- As many pairs are read as stand in front of the bytes, and no more. -/
theorem paired_iff : Paired bytes k ↔ k ≤ (decodePairs bytes).length := by
  cases k with
  | zero => exact iff_of_true (paired_zero bytes) (Nat.zero_le _)
  | succ k =>
    fun_induction decodePairs bytes generalizing k with
    | case1 high low rest h l hl hh ih =>
      have hdigits := And.intro (digitValue?_byte.mp hh).1 (digitValue?_byte.mp hl).1
      rw [paired_succ_iff, List.length_cons, Nat.add_le_add_iff_right, and_iff_right hdigits]
      cases k with
      | zero => exact iff_of_true (paired_zero rest) (Nat.zero_le _)
      | succ k => exact ih k
    | case2 high low rest hnone =>
      refine iff_of_false (fun h => ?_) (Nat.not_succ_le_zero k)
      obtain ⟨⟨hhigh, hlow⟩, -⟩ := paired_succ_iff.mp h
      exact hnone _ _ (digitValue?_byte.mpr ⟨hhigh, rfl⟩) (digitValue?_byte.mpr ⟨hlow, rfl⟩)
    | case3 bytes hshort =>
      refine iff_of_false (fun h => ?_) (Nat.not_succ_le_zero k)
      have hle := h.1
      rcases bytes with _ | ⟨high, _ | ⟨low, rest⟩⟩
      · exact absurd hle (Nat.not_succ_le_zero _)
      · exact absurd (Nat.le_of_succ_le_succ hle) (Nat.not_succ_le_zero _)
      · exact hshort high low rest rfl

/-- Every byte that is read has the values of its pair. -/
theorem getElem?_decodePairs {i : Nat} (h : i < (decodePairs bytes).length) :
    ∃ high low b, bytes[2 * i]? = some high ∧ bytes[2 * i + 1]? = some low ∧
      (decodePairs bytes)[i]? = some b ∧ b.toNat = 16 * value high + value low := by
  fun_induction decodePairs bytes generalizing i with
  | case1 high low rest h l hl hh ih =>
    obtain ⟨hhigh, rfl⟩ := digitValue?_byte.mp hh
    obtain ⟨hlow, rfl⟩ := digitValue?_byte.mp hl
    cases i with
    | zero => exact ⟨high, low, _, rfl, rfl, rfl, toNat_joined hhigh hlow⟩
    | succ i => exact ih (Nat.lt_of_succ_lt_succ h)
  | case2 => exact absurd h (Nat.not_lt_zero i)
  | case3 => exact absurd h (Nat.not_lt_zero i)

/-- What is read is written as the digits in lower case. -/
theorem encode_decodePairs (bytes : Bytes) :
    encode (decodePairs bytes) = (bytes.take (2 * (decodePairs bytes).length)).map lower := by
  fun_induction decodePairs bytes with
  | case1 high low rest h l hl hh ih =>
    obtain ⟨hhigh, rfl⟩ := digitValue?_byte.mp hh
    obtain ⟨hlow, rfl⟩ := digitValue?_byte.mp hl
    rw [encode, List.flatMap_cons, pair_joined hhigh hlow, ← encode, ih]
    rfl
  | case2 => rfl
  | case3 => rfl

/-- Only the digits that are read count. -/
theorem decodePairs_congr {other : Bytes}
    (hlength : (decodePairs other).length = (decodePairs bytes).length)
    (h : other.take (2 * (decodePairs bytes).length) =
      bytes.take (2 * (decodePairs bytes).length)) : decodePairs other = decodePairs bytes := by
  have htext : encode (decodePairs other) = encode (decodePairs bytes) := by
    rw [encode_decodePairs, encode_decodePairs, hlength, h]
  rw [← decode_encode (decodePairs other), htext, decode_encode]

/-- The digits that are read are the first characters of the text. -/
theorem encode_decode (text : List Char) :
    encode (decode text) = (text.take (2 * (decode text).length)).map Char.toLower := by
  obtain ⟨hle, hdigits⟩ := paired_iff.mpr (Nat.le_refl (decode text).length)
  obtain ⟨hchars, hbytes⟩ :=
    Utf8.take_encode_of_lt hle fun b hb => lt_of_lower_mem (hdigits b hb)
  rw [decode, encode_decodePairs, ← decode, hbytes, List.map_map]
  refine List.map_congr_left fun c hc => ?_
  have hc := hchars c hc
  rw [Function.comp_apply, lower, UInt8.toNat_ofNat_of_lt' (show c.toNat < 256 by omega),
    Char.ofNat_toNat]

/-- The greatest number of pairs of digits in front of the bytes of a text is the number of bytes
that it is read as. -/
theorem isGreatest_paired_iff {text : List Char} :
    IsGreatest {k | Paired (Utf8.encode text) k} k ↔ k = (decode text).length := by
  have hgreatest : IsGreatest {k | Paired (Utf8.encode text) k} (decode text).length :=
    ⟨paired_iff.mpr (Nat.le_refl _), fun _ h => paired_iff.mp h⟩
  constructor
  · intro h
    exact h.unique hgreatest
  · rintro rfl
    exact hgreatest

end Hex

end Text

/-! ## Texts -/

namespace Encoding

open Text

/-- A text is read as one byte for each pair of digits in front of its bytes, up to the first pair
that is not two digits, or up to a last byte that has no pair. Each byte has the values of its two
digits, and all of them are written as the first characters of the text, in lower case. No other
byte of the text counts. -/
theorem encode_hex_pairs (t : String) :
    ∃ k bytes, IsGreatest {k | Hex.Paired (Utf8.encode t.toList) k} k ∧
      hex.encode t = .ok bytes ∧ bytes.length = k ∧
      (∀ i < k, ∃ high low b, (Utf8.encode t.toList)[2 * i]? = some high ∧
        (Utf8.encode t.toList)[2 * i + 1]? = some low ∧ bytes[i]? = some b ∧
          b.toNat = 16 * Hex.value high + Hex.value low) ∧
      (hex.decode bytes).toList = (t.toList.take (2 * k)).map Char.toLower ∧
      ∀ other : String, IsGreatest {k | Hex.Paired (Utf8.encode other.toList) k} k →
        (Utf8.encode other.toList).take (2 * k) = (Utf8.encode t.toList).take (2 * k) →
          hex.encode other = hex.encode t := by
  refine ⟨_, Hex.decode t.toList, Hex.isGreatest_paired_iff.mpr rfl, rfl, rfl, ?_, ?_, ?_⟩
  · intro i hi
    exact Hex.getElem?_decodePairs hi
  · rw [decode, String.toList_ofList]
    exact Hex.encode_decode t.toList
  · intro other hother hsame
    have hlength := Hex.isGreatest_paired_iff.mp hother
    exact congrArg Except.ok (Hex.decodePairs_congr hlength.symm hsame)

/-- Digits in both cases, then a digit that is paired with the first byte of a character of two
bytes, and digits that do not count. -/
theorem encode_hex_pairs_straddled :
    hex.encode "6A4bCé7a" = .ok [0x6A, 0x4B] ∧
      (hex.decode [0x6A, 0x4B]).toList = ("6A4bCé7a".toList.take 4).map Char.toLower ∧
      IsGreatest {k | Hex.Paired (Utf8.encode "6A4b0".toList) k} 2 ∧
      hex.encode "6A4b0" = hex.encode "6A4bCé7a" := by
  have hread : hex.encode "6A4bCé7a" = .ok [0x6A, 0x4B] := rfl
  have hlone : IsGreatest {k | Hex.Paired (Utf8.encode "6A4b0".toList) k} 2 :=
    Hex.isGreatest_paired_iff.mpr rfl
  obtain ⟨k, bytes, -, hbytes, hlength, -, htext, hcount⟩ := encode_hex_pairs "6A4bCé7a"
  obtain rfl := Except.ok.inj (hread.symm.trans hbytes)
  obtain rfl : 2 = k := hlength
  exact ⟨hread, htext, hlone, hcount "6A4b0" hlone rfl⟩

end Encoding

end Octets
