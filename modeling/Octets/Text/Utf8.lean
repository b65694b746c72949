import Octets.Bytes

/-!
# UTF-8

Encoding is a concatenation of one to four bytes per character. Decoding never fails: it reads
a byte at a time, remembering an unfinished character in a `Pending`, and yields `none` for each
maximal ill-formed part, that is for a byte that begins no character, and for an unfinished
character at the point where a byte that cannot continue it (or the end) is met. That byte then
begins afresh, so damage never swallows what follows it.

* `pieces` — the characters and the damaged parts of a byte sequence, in order;
* `decode` — the pieces with U+FFFD for every damaged part;
* `isValid` — no damaged part;
* `fitting` — the longest initial part of a text whose encoded form fits a limit.
-/

namespace Octets.Text.Utf8

/-! ## Encoding -/

/-- The number of bytes of a character. -/
def width (c : Char) : Nat :=
  if c.toNat < 0x80 then 1 else if c.toNat < 0x800 then 2 else if c.toNat < 0x10000 then 3 else 4

/-- A byte that continues a character, from the six bits that it carries. -/
def continuation (six : Nat) : UInt8 := UInt8.ofNat (0x80 + six % 64)

/-- The bytes of a character. -/
def encodeChar (c : Char) : Bytes :=
  let n := c.toNat
  if n < 0x80 then [UInt8.ofNat n]
  else if n < 0x800 then [UInt8.ofNat (0xC0 + n / 64), continuation n]
  else if n < 0x10000 then
    [UInt8.ofNat (0xE0 + n / 4096), continuation (n / 64), continuation n]
  else
    [UInt8.ofNat (0xF0 + n / 262144), continuation (n / 4096), continuation (n / 64),
      continuation n]

/-- A character below `0x80` is its own byte. -/
theorem encodeChar_of_lt {c : Char} (h : c.toNat < 0x80) :
    encodeChar c = [UInt8.ofNat c.toNat] := by
  simp [encodeChar, h]

/-- The bytes of a text. -/
def encode (text : List Char) : Bytes := text.flatMap encodeChar

/-- The number of bytes of a text. -/
def byteLength : List Char → Nat
  | [] => 0
  | c :: rest => width c + byteLength rest

@[simp] theorem length_encodeChar (c : Char) : (encodeChar c).length = width c := by
  simp only [encodeChar, width]
  split
  · rfl
  · split
    · rfl
    · split <;> rfl

@[simp] theorem encode_nil : encode [] = [] := rfl

@[simp] theorem encode_cons (c : Char) (text : List Char) :
    encode (c :: text) = encodeChar c ++ encode text := rfl

theorem encode_append (a b : List Char) : encode (a ++ b) = encode a ++ encode b := by
  simp [encode]

@[simp] theorem length_encode (text : List Char) : (encode text).length = byteLength text := by
  induction text with
  | nil => rfl
  | cons c rest ih => simp [byteLength, ih]

theorem width_pos (c : Char) : 0 < width c := by
  unfold width
  split
  · omega
  · split
    · omega
    · split <;> omega

/-! ## Decoding -/

/-- An unfinished character: the bits read so far, the number of bytes still due beyond the next
one, and the range of the next one. -/
structure Pending where
  code : Nat
  later : Nat
  low : UInt8
  high : UInt8

/-- What a first byte gives: a whole character or a damaged part, and what is left unfinished.
The ranges of the second byte shut out overlong forms, surrogates and what lies beyond the last
character. -/
def first (b : UInt8) : List (Option Char) × Option Pending :=
  if b < 0x80 then ([some (Char.ofNat b.toNat)], none)
  else if b < 0xC2 then ([none], none)
  else if b < 0xE0 then ([], some ⟨b.toNat - 0xC0, 0, 0x80, 0xBF⟩)
  else if b = 0xE0 then ([], some ⟨0, 1, 0xA0, 0xBF⟩)
  else if b = 0xED then ([], some ⟨0xD, 1, 0x80, 0x9F⟩)
  else if b < 0xF0 then ([], some ⟨b.toNat - 0xE0, 1, 0x80, 0xBF⟩)
  else if b = 0xF0 then ([], some ⟨0, 2, 0x90, 0xBF⟩)
  else if b < 0xF4 then ([], some ⟨b.toNat - 0xF0, 2, 0x80, 0xBF⟩)
  else if b = 0xF4 then ([], some ⟨4, 2, 0x80, 0x8F⟩)
  else ([none], none)

/-- One byte further: the pieces that it completes, and what is then unfinished. -/
def step : Option Pending → UInt8 → List (Option Char) × Option Pending
  | none, b => first b
  | some p, b =>
    if p.low ≤ b ∧ b ≤ p.high then
      match p.later with
      | 0 => ([some (Char.ofNat (p.code * 64 + b.toNat % 64))], none)
      | later + 1 => ([], some ⟨p.code * 64 + b.toNat % 64, later, 0x80, 0xBF⟩)
    else (none :: (first b).1, (first b).2)

/-- The pieces of a byte sequence that continues an unfinished character. -/
def piecesFrom : Option Pending → Bytes → List (Option Char)
  | none, [] => []
  | some _, [] => [none]
  | state, b :: rest => (step state b).1 ++ piecesFrom (step state b).2 rest

/-- The characters of a byte sequence, with `none` for each damaged part. -/
def pieces (bytes : Bytes) : List (Option Char) := piecesFrom none bytes

/-- The replacement character U+FFFD. -/
def replacement : Char := Char.ofNat 0xFFFD

/-- The text of a byte sequence, with U+FFFD for each damaged part. -/
def decode (bytes : Bytes) : List Char := (pieces bytes).map (·.getD replacement)

/-- The byte sequence is the encoded form of a text. -/
def isValid (bytes : Bytes) : Bool := (pieces bytes).all Option.isSome

/-! ## Cutting -/

/-- The longest initial part of a text whose encoded form has at most `limit` bytes. -/
def fitting (limit : Nat) : List Char → List Char
  | [] => []
  | c :: rest => if width c ≤ limit then c :: fitting (limit - width c) rest else []

theorem byteLength_fitting_le (limit : Nat) (text : List Char) :
    byteLength (fitting limit text) ≤ limit := by
  induction text generalizing limit with
  | nil => exact Nat.zero_le limit
  | cons c rest ih =>
    unfold fitting
    split
    · have := ih (limit - width c)
      simp only [byteLength]
      omega
    · exact Nat.zero_le limit

end Octets.Text.Utf8
