import Octets.Text.Digit
import Octets.Text.Utf16

/-!
# JSON tokens

The first stage of reading JSON text: blanks are dropped, and what is left is cut into tokens.

A number keeps its digits, because what it stands for depends on where it is used. A quoted text
is kept as the characters that it stands for; it has none if an escape in it names half of a
surrogate pair, which is no mistake where the text is not needed.
-/

namespace Octets.Json

/-- The text of a number. -/
structure Numeral where
  negative : Bool
  whole : List Char
  /-- The digits after the point; none without a point. -/
  fraction : List Char
  /-- The sign and the digits of the exponent. -/
  exponent : Option (Bool × List Char)
deriving DecidableEq

/-- The characters of a quoted text, if it has any. -/
abbrev Quoted := Option (List Char)

/-- A token of JSON text. -/
inductive Token where
  | openBrace
  | closeBrace
  | openBracket
  | closeBracket
  | colon
  | comma
  | null
  | bool (b : Bool)
  | number (n : Numeral)
  | text (s : Quoted)
deriving DecidableEq

/-! ## Quoted texts -/

/-- A part of a quoted text: a character, or a 16-bit unit that is given by number. -/
inductive Piece where
  | char (c : Char)
  | unit (u : UInt16)

/-- The characters of a sequence of pieces; units that follow each other may be pairs. -/
def joinPieces : List Piece → Quoted
  | [] => some []
  | .char c :: rest => (joinPieces rest).map (c :: ·)
  | [.unit u] =>
    if Text.Utf16.isHigh u || Text.Utf16.isLow u then none else some [Text.Utf16.single u]
  | .unit u :: .unit v :: rest =>
    if Text.Utf16.isHigh u && Text.Utf16.isLow v then
      (joinPieces rest).map (Text.Utf16.joined u v :: ·)
    else if Text.Utf16.isHigh u || Text.Utf16.isLow u then none
    else (joinPieces (.unit v :: rest)).map (Text.Utf16.single u :: ·)
  | .unit u :: .char c :: rest =>
    if Text.Utf16.isHigh u || Text.Utf16.isLow u then none
    else (joinPieces rest).map fun text => Text.Utf16.single u :: c :: text

/-- The character of an escape of one letter. -/
def escaped? : Char → Option Char
  | '"' => some '"'
  | '\\' => some '\\'
  | '/' => some '/'
  | 'b' => some '\x08'
  | 'f' => some '\x0c'
  | 'n' => some '\n'
  | 'r' => some '\r'
  | 't' => some '\t'
  | _ => none

/-- The unit of four hexadecimal digits. -/
def unit? (a b c d : Char) : Option UInt16 := do
  let a ← Text.digitValue? a.toNat
  let b ← Text.digitValue? b.toNat
  let c ← Text.digitValue? c.toNat
  let d ← Text.digitValue? d.toNat
  return UInt16.ofNat (((a * 16 + b) * 16 + c) * 16 + d)

/-- The pieces up to the closing quote, and the rest. -/
def scanQuoted : List Char → Option (List Piece × List Char)
  | [] => none
  | '"' :: rest => some ([], rest)
  | '\\' :: 'u' :: a :: b :: c :: d :: rest => do
    let u ← unit? a b c d
    let (pieces, rest) ← scanQuoted rest
    return (.unit u :: pieces, rest)
  | '\\' :: e :: rest => do
    let c ← escaped? e
    let (pieces, rest) ← scanQuoted rest
    return (.char c :: pieces, rest)
  | c :: rest =>
    if c.toNat < 0x20 || c == '\\' then none
    else do
      let (pieces, rest) ← scanQuoted rest
      return (.char c :: pieces, rest)

/-! ## Numbers -/

/-- The digits of a fraction, at least one after a point, and the rest. -/
def scanFraction : List Char → Option (List Char × List Char)
  | '.' :: rest =>
    if (rest.takeWhile Char.isDigit).isEmpty then none
    else some (rest.takeWhile Char.isDigit, rest.dropWhile Char.isDigit)
  | rest => some ([], rest)

/-- The sign and the digits, at least one, of an exponent after its letter. -/
def scanPower (text : List Char) : Option ((Bool × List Char) × List Char) :=
  let (negative, rest) :=
    match text with
    | '-' :: rest => (true, rest)
    | '+' :: rest => (false, rest)
    | rest => (false, rest)
  if (rest.takeWhile Char.isDigit).isEmpty then none
  else some ((negative, rest.takeWhile Char.isDigit), rest.dropWhile Char.isDigit)

/-- The exponent, if there is one, and the rest. -/
def scanExponent : List Char → Option (Option (Bool × List Char) × List Char)
  | 'e' :: rest => (scanPower rest).map fun (power, rest) => (some power, rest)
  | 'E' :: rest => (scanPower rest).map fun (power, rest) => (some power, rest)
  | rest => some (none, rest)

/-- A number after its sign, and the rest. A zero at the beginning stands alone. -/
def scanNumber (negative : Bool) (text : List Char) : Option (Numeral × List Char) := do
  let whole := text.takeWhile Char.isDigit
  if whole.isEmpty || (whole.head? == some '0' && 1 < whole.length) then none
  let (fraction, rest) ← scanFraction (text.dropWhile Char.isDigit)
  let (exponent, rest) ← scanExponent rest
  return (⟨negative, whole, fraction, exponent⟩, rest)

/-! ## Tokens -/

/-- The blanks between tokens. -/
def isBlank (c : Char) : Bool := c == ' ' || c == '\n' || c == '\t' || c == '\r'

/-- The first token of a text that begins with one, and the rest. -/
def first? : List Char → Option (Token × List Char)
  | '\x7b' :: rest => some (.openBrace, rest)
  | '\x7d' :: rest => some (.closeBrace, rest)
  | '[' :: rest => some (.openBracket, rest)
  | ']' :: rest => some (.closeBracket, rest)
  | ':' :: rest => some (.colon, rest)
  | ',' :: rest => some (.comma, rest)
  | 'n' :: 'u' :: 'l' :: 'l' :: rest => some (.null, rest)
  | 't' :: 'r' :: 'u' :: 'e' :: rest => some (.bool true, rest)
  | 'f' :: 'a' :: 'l' :: 's' :: 'e' :: rest => some (.bool false, rest)
  | '"' :: rest => (scanQuoted rest).map fun (pieces, rest) => (.text (joinPieces pieces), rest)
  | '-' :: rest => (scanNumber true rest).map fun (n, rest) => (.number n, rest)
  | text => (scanNumber false text).map fun (n, rest) => (.number n, rest)

/-- The tokens of a text. A token takes at least one character, which is what bounds the
recursion. -/
def tokens? (text : List Char) : Option (List Token) :=
  match text with
  | [] => some []
  | c :: more =>
    if isBlank c then tokens? more
    else
      match first? (c :: more) with
      | some (token, rest) =>
        if rest.length < (c :: more).length then (tokens? rest).map (token :: ·) else none
      | none => none
termination_by text.length
decreasing_by
  · exact Nat.lt_succ_self more.length
  · assumption

end Octets.Json
