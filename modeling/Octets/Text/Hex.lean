import Octets.Bytes
import Octets.Text.Digit
import Octets.Text.Utf8

/-!
# Hexadecimal text

Two lower case digits per byte. Reading takes the bytes of the text in pairs and stops at the
first pair that is not two digits, or at a lone last byte; what follows is ignored.
-/

namespace Octets.Text.Hex

/-- The two digits of a byte. -/
def pair (b : UInt8) : List Char := [lowerDigit (b.toNat / 16), lowerDigit (b.toNat % 16)]

/-- The digits of a byte sequence. -/
def encode (bytes : Bytes) : List Char := bytes.flatMap pair

/-- The bytes of the initial pairs of digits. -/
def decodePairs : Bytes → Bytes
  | high :: low :: rest =>
    match digitValue? high.toNat, digitValue? low.toNat with
    | some h, some l => UInt8.ofNat (16 * h + l) :: decodePairs rest
    | _, _ => []
  | _ => []

/-- The bytes that a text spells. -/
def decode (text : List Char) : Bytes := decodePairs (Utf8.encode text)

/-- The number of pairs in a text, spelling or not. -/
def byteLength (text : List Char) : Nat := Utf8.byteLength text / 2

@[simp] theorem length_encode (bytes : Bytes) : (encode bytes).length = 2 * bytes.length := by
  induction bytes with
  | nil => rfl
  | cons b rest ih =>
    have : encode (b :: rest) = pair b ++ encode rest := rfl
    simp only [this, List.length_append, ih, List.length_cons]
    simp only [pair, List.length_cons, List.length_nil]
    omega

theorem length_decodePairs_le (bytes : Bytes) :
    (decodePairs bytes).length ≤ bytes.length / 2 := by
  fun_induction decodePairs bytes with
  | case1 high low rest h l hh hl ih => simp only [List.length_cons]; omega
  | case2 => simp
  | case3 => simp

/-- The digits of a byte are read as that byte. -/
theorem decodePairs_pair (b : UInt8) (rest : Bytes) :
    decodePairs (Utf8.encode (pair b) ++ rest) = b :: decodePairs rest := by
  have hb := b.toNat_lt
  have hhigh : b.toNat / 16 < 16 := by omega
  have hlow : b.toNat % 16 < 16 := by omega
  have hhighByte := lowerDigit_lt hhigh
  have hlowByte := lowerDigit_lt hlow
  simp only [pair, Utf8.encode_cons, Utf8.encode_nil, Utf8.encodeChar_of_lt hhighByte,
    Utf8.encodeChar_of_lt hlowByte, List.cons_append, List.nil_append, decodePairs]
  rw [UInt8.toNat_ofNat_of_lt' (Nat.lt_trans hhighByte (by decide)),
    UInt8.toNat_ofNat_of_lt' (Nat.lt_trans hlowByte (by decide)),
    digitValue?_lowerDigit hhigh, digitValue?_lowerDigit hlow]
  simp only [Nat.div_add_mod, UInt8.ofNat_toNat]

/-- The digits of a byte sequence are read back as that sequence. -/
theorem decode_encode (bytes : Bytes) : decode (encode bytes) = bytes := by
  induction bytes with
  | nil => rfl
  | cons b rest ih =>
    have split : encode (b :: rest) = pair b ++ encode rest := rfl
    unfold decode at ih ⊢
    rw [split, Utf8.encode_append, decodePairs_pair, ih]

end Octets.Text.Hex
