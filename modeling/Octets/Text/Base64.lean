import Octets.Bytes
import Octets.Text.Utf8

/-!
# base64 and base64url

Three bytes are four characters of six bits each. base64 text is padded with `=` to a multiple of
four characters; base64url text is not.

Reading is forgiving: blanks are taken out; if then the length is a multiple of four, up to two
`=` are taken from the end; what remains must be characters of the alphabet, and not one more
than a multiple of four. The bits left over in the last group are dropped.
-/

namespace Octets.Text.Base64

/-- The two alphabets; they differ in the last two characters. -/
inductive Alphabet where
  | standard
  | urlSafe
deriving DecidableEq

/-- The character of a value below 64. -/
def Alphabet.digit (alphabet : Alphabet) (value : Nat) : Char :=
  if value < 26 then Char.ofNat (0x41 + value)
  else if value < 52 then Char.ofNat (0x61 + (value - 26))
  else if value < 62 then Char.ofNat (0x30 + (value - 52))
  else match alphabet with
    | .standard => if value = 62 then '+' else '/'
    | .urlSafe => if value = 62 then '-' else '_'

/-- The value of a character of the alphabet. -/
def Alphabet.value? (alphabet : Alphabet) (c : Char) : Option Nat :=
  let n := c.toNat
  if 0x41 ≤ n ∧ n ≤ 0x5A then some (n - 0x41)
  else if 0x61 ≤ n ∧ n ≤ 0x7A then some (n - 0x61 + 26)
  else if 0x30 ≤ n ∧ n ≤ 0x39 then some (n - 0x30 + 52)
  else match alphabet with
    | .standard => if c = '+' then some 62 else if c = '/' then some 63 else none
    | .urlSafe => if c = '-' then some 62 else if c = '_' then some 63 else none

/-- A character of the alphabet has the value that it was written for. -/
theorem Alphabet.value?_digit (alphabet : Alphabet) {value : Nat} (h : value < 64) :
    alphabet.value? (alphabet.digit value) = some value := by
  have every : ∀ value < 64, alphabet.value? (alphabet.digit value) = some value := by
    cases alphabet <;> decide
  exact every value h

/-! ## Six-bit groups -/

/-- The six-bit values of a byte sequence, most significant bits first, the last one filled up
with zeros. -/
def sextets : Bytes → List Nat
  | a :: b :: c :: rest =>
    a.toNat / 4 :: (a.toNat % 4 * 16 + b.toNat / 16) :: (b.toNat % 16 * 4 + c.toNat / 64) ::
      (c.toNat % 64) :: sextets rest
  | [a, b] => [a.toNat / 4, a.toNat % 4 * 16 + b.toNat / 16, b.toNat % 16 * 4]
  | [a] => [a.toNat / 4, a.toNat % 4 * 16]
  | [] => []

/-- The bytes of a sequence of six-bit values; bits that fill no byte are dropped. -/
def ofSextets : List Nat → Bytes
  | p :: q :: r :: s :: rest =>
    UInt8.ofNat (p * 4 + q / 16) :: UInt8.ofNat (q % 16 * 16 + r / 4) ::
      UInt8.ofNat (r % 4 * 64 + s) :: ofSextets rest
  | [p, q, r] => [UInt8.ofNat (p * 4 + q / 16), UInt8.ofNat (q % 16 * 16 + r / 4)]
  | [p, q] => [UInt8.ofNat (p * 4 + q / 16)]
  | _ => []

/-- The six-bit values of a byte sequence give it back. -/
theorem ofSextets_sextets (bytes : Bytes) : ofSextets (sextets bytes) = bytes := by
  fun_induction sextets bytes with
  | case1 a b c rest ih =>
    have ha := a.toNat_lt
    have hb := b.toNat_lt
    have hc := c.toNat_lt
    simp only [ofSextets, ih]
    rw [show a.toNat / 4 * 4 + (a.toNat % 4 * 16 + b.toNat / 16) / 16 = a.toNat by omega,
      show (a.toNat % 4 * 16 + b.toNat / 16) % 16 * 16 +
        (b.toNat % 16 * 4 + c.toNat / 64) / 4 = b.toNat by omega,
      show (b.toNat % 16 * 4 + c.toNat / 64) % 4 * 64 + c.toNat % 64 = c.toNat by omega,
      UInt8.ofNat_toNat, UInt8.ofNat_toNat, UInt8.ofNat_toNat]
  | case2 a b =>
    have ha := a.toNat_lt
    have hb := b.toNat_lt
    simp only [ofSextets]
    rw [show a.toNat / 4 * 4 + (a.toNat % 4 * 16 + b.toNat / 16) / 16 = a.toNat by omega,
      show (a.toNat % 4 * 16 + b.toNat / 16) % 16 * 16 + b.toNat % 16 * 4 / 4 = b.toNat by omega,
      UInt8.ofNat_toNat, UInt8.ofNat_toNat]
  | case3 a =>
    have ha := a.toNat_lt
    simp only [ofSextets]
    rw [show a.toNat / 4 * 4 + a.toNat % 4 * 16 / 16 = a.toNat by omega, UInt8.ofNat_toNat]
  | case4 => rfl

/-! ## Text -/

/-- The `=` that follow the characters of `count` bytes. -/
def padding (count : Nat) : List Char := List.replicate ((3 - count % 3) % 3) '='

/-- The text of a byte sequence. -/
def encode (alphabet : Alphabet) (bytes : Bytes) : List Char :=
  (sextets bytes).map alphabet.digit ++
    match alphabet with
    | .standard => padding bytes.length
    | .urlSafe => []

/-- The blanks that may stand anywhere in the text. -/
def isBlank (c : Char) : Bool :=
  c == '\t' || c == '\n' || c == '\x0c' || c == '\r' || c == ' '

/-- The text without one `=` at its end, if there is one. -/
def dropPad (text : List Char) : List Char :=
  if text.getLast? = some '=' then text.dropLast else text

/-- The text without blanks and, at a multiple of four, without its padding. -/
def payload (text : List Char) : List Char :=
  let dense := text.filter (!isBlank ·)
  if dense.length % 4 = 0 then dropPad (dropPad dense) else dense

/-- The bytes of a text, if it is one. -/
def decode? (alphabet : Alphabet) (text : List Char) : Option Bytes :=
  if (payload text).length % 4 = 1 then none
  else ((payload text).mapM alphabet.value?).map ofSextets

/-- The number of bytes that a text of this length and padding would have. -/
def byteLength (text : List Char) : Nat :=
  Utf8.byteLength (dropPad (dropPad text)) * 3 / 4

end Octets.Text.Base64
